import EntityQuery.Join.Tree
import EntityQuery.Layout
import EntityQuery.Filter.Operators

/-! The state shared while one query is planned: the joins made so far, the layout of the result and
the parameters of the filter. -/

namespace EntityQuery

variable {ι : Type}

structure Context (ι : Type) where
  tree : JoinTree ι
  layout : Layout
  parameters : Parameters
  /-- The number that the next test puts into the names of its parameters. -/
  counter : Nat

/-- A filter as text, with its parameters and the joins that it may refer to. -/
structure FilterClause (ι : Type) where
  text : String
  parameters : Parameters
  joins : Joins ι

def FilterClause.isEmpty (c : FilterClause ι) : Bool := c.text.isEmpty

namespace Context

def start (root : ι) (aliasName : String) : Context ι where
  tree := .start root aliasName
  layout := .empty
  parameters := .empty
  counter := 0

def inTree {α : Type} (step : Step (JoinTree ι) α) : Step (Context ι) α :=
  step.within (·.tree) fun c tree => { c with tree }

def inParameters {α : Type} (step : Step Parameters α) : Step (Context ι) α :=
  step.within (·.parameters) fun c parameters => { c with parameters }

/-- Everything bound and joined so far, as the clause of a filter text. -/
def clause (c : Context ι) (text : String) : FilterClause ι := ⟨text, c.parameters, c.tree.joins⟩

end Context

end EntityQuery
