/-! Three-valued truth. -/

namespace EntityQuery

inductive Truth where
  | false | unknown | true
  deriving DecidableEq

namespace Truth

def ofBool (b : Bool) : Truth := if b then .true else .false

def not : Truth → Truth
  | .true => .false
  | .unknown => .unknown
  | .false => .true

/-- The lesser of the two, where unknown lies between false and true. -/
def and : Truth → Truth → Truth
  | .false, _ => .false
  | _, .false => .false
  | .true, t => t
  | t, .true => t
  | .unknown, .unknown => .unknown

/-- The greater of the two. -/
def or (s t : Truth) : Truth := (s.not.and t.not).not

def all (ts : List Truth) : Truth := ts.foldr and .true

def any (ts : List Truth) : Truth := ts.foldr or .false

/-- The negation of a truth value when asked for. -/
def negateIf (negated : Bool) (t : Truth) : Truth := if negated then t.not else t

end Truth

end EntityQuery
