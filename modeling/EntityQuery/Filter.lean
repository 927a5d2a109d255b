import EntityQuery.Value

/-! Filters: boolean combinations of tests of columns against named parameters. A filter is written
as a row of tokens, in which `NOT` binds tighter than `AND`, `AND` tighter than `OR`, and `BETWEEN`
takes the next `AND` to itself. -/

namespace EntityQuery

/-- A column of the entity under an alias. -/
structure ColumnRef where
  aliasName : String
  column : String
  deriving DecidableEq

/-- A symbol between a column and a parameter. -/
inductive Relop where
  | eq | ne | lt | le | gt | ge
  deriving DecidableEq

def Relop.symbol : Relop → String
  | .eq => "="
  | .ne => "!="
  | .lt => "<"
  | .le => "<="
  | .gt => ">"
  | .ge => ">="

/-- A test of one column. Parameters are given by name; `member` takes a list. -/
inductive Test where
  | compare (relop : Relop) (parameter : String)
  | member (negated : Bool) (parameter : String)
  | between (low high : String)
  | like (negated folded : Bool) (parameter : String)
  | pattern (symbol parameter : String)
  | null (negated : Bool)
  deriving DecidableEq

/-- A connective between parts. -/
inductive Connective where
  | and | or
  deriving DecidableEq

inductive Filter where
  | test (column : ColumnRef) (test : Test)
  /-- Parts that must all hold, without parentheses around them. -/
  | chain (parts : List Filter)
  /-- Parts in one pair of parentheses. -/
  | group (connective : Connective) (parts : List Filter)
  | negation (inner : Filter)

/-- The pieces of a written filter over columns of type `κ`. -/
inductive FilterToken (κ : Type) where
  | column (c : κ)
  | parameter (name : String)
  | symbol (text : String)
  | suffix (text : String)
  | lower
  | openParen
  | closeParen
  | connective (c : Connective)
  | not

namespace FilterToken

variable {κ : Type}

def text (spell : κ → String) : FilterToken κ → String
  | .column c => spell c
  | .parameter name => ":" ++ name
  | .symbol s => " " ++ s ++ " "
  | .suffix s => " " ++ s
  | .lower => "LOWER"
  | .openParen => "("
  | .closeParen => ")"
  | .connective .and => " AND "
  | .connective .or => " OR "
  | .not => "NOT "

def write (spell : κ → String) (tokens : List (FilterToken κ)) : String :=
  String.join (tokens.map (text spell))

/-- One token in parentheses after `LOWER`. -/
def lowered (t : FilterToken κ) : List (FilterToken κ) := [.lower, .openParen, t, .closeParen]

/-- Parts with a connective between each two. -/
def between (c : Connective) (parts : List (List (FilterToken κ))) : List (FilterToken κ) :=
  [.connective c].intercalate parts

end FilterToken

namespace Test

variable {κ : Type}

def tokens (c : κ) : Test → List (FilterToken κ)
  | .compare relop p => [.column c, .symbol relop.symbol, .parameter p]
  | .member negated p => [.column c, .symbol (if negated then "NOT IN" else "IN"), .parameter p]
  | .between low high =>
    [.column c, .symbol "BETWEEN", .parameter low, .connective .and, .parameter high]
  | .like negated folded p =>
    let word := .symbol (if negated then "NOT LIKE" else "LIKE")
    if folded then FilterToken.lowered (.column c) ++ [word] ++ FilterToken.lowered (.parameter p)
    else [.column c, word, .parameter p]
  | .pattern symbol p => [.column c, .symbol symbol, .parameter p]
  | .null negated => [.column c, .suffix (if negated then "IS NOT NULL" else "IS NULL")]

/-- The test as text, of a column that is spelled already. -/
def text (column : String) (t : Test) : String := FilterToken.write id (t.tokens column)

end Test

namespace ColumnRef

/-- Alias and column, each quoted where that is called for. -/
def spell (quote : String → String) (c : ColumnRef) : String :=
  quote c.aliasName ++ "." ++ quote c.column

end ColumnRef

namespace Filter

mutual

def tokens : Filter → List (FilterToken ColumnRef)
  | .test c t => t.tokens c
  | .chain parts => FilterToken.between .and (tokensOfAll parts)
  | .group c parts => [.openParen] ++ FilterToken.between c (tokensOfAll parts) ++ [.closeParen]
  | .negation inner => [.not, .openParen] ++ tokens inner ++ [.closeParen]

def tokensOfAll : List Filter → List (List (FilterToken ColumnRef))
  | [] => []
  | f :: rest => tokens f :: tokensOfAll rest

end

def text (quote : String → String) (f : Filter) : String :=
  FilterToken.write (ColumnRef.spell quote) f.tokens

/-- No parts make no filter. -/
def ofParts (build : List Filter → Filter) : List Filter → Option Filter
  | [] => none
  | parts => some (build parts)

/-- Several filters that must all hold: each in parentheses, one alone as it is. -/
def conjunction : List Filter → Option Filter
  | [] => none
  | [f] => some f
  | fs => some (.chain (fs.map fun f => .group .and [f]))

end Filter

end EntityQuery
