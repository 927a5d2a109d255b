import EntityQuery.Settings

/-! Pages of results. The number of pages is the ceiling of a quotient in binary64 numbers, which is
the exact ceiling as long as both counts are such numbers. -/

namespace EntityQuery

structure Page where
  items : List Value
  totalCount : Int
  /-- Counted from one. -/
  pageNumber : Int
  pageSize : Int

namespace Page

/-- The ceiling of `count / size` after rounding the quotient to a binary64 number. -/
def ceilQuotient (count size : Int) : Except QueryError Int :=
  let quotient := Double.ofQuotient (decide (count < 0) != decide (size < 0)) count.natAbs size.natAbs
  match quotient.ceil? with
  | some n => pure n
  | none => throw .quotientTooLarge

def totalPages (p : Page) : Except QueryError Int :=
  if p.pageSize ≤ 0 then pure 0 else ceilQuotient p.totalCount p.pageSize

def hasNext (p : Page) : Except QueryError Bool := do
  return decide (p.pageNumber < (← p.totalPages))

def hasPrevious (p : Page) : Bool := decide (1 < p.pageNumber)

/-- The object that describes a page. -/
def toValue (p : Page) : Except QueryError Value := do
  let pages ← p.totalPages
  let next ← p.hasNext
  return .obj [("items", .list p.items), ("total_count", .int p.totalCount),
    ("page_number", .int p.pageNumber), ("page_size", .int p.pageSize),
    ("total_pages", .int pages), ("has_next_page", .bool next),
    ("has_previous_page", .bool p.hasPrevious)]

/-- Reads the parts of a page. -/
def read (items totalCount pageNumber pageSize : Value) : Except QueryError Page :=
  match items.asItems, totalCount.asInt, pageNumber.asInt, pageSize.asInt with
  | .ok items, .ok totalCount, .ok pageNumber, .ok pageSize =>
    pure ⟨items, totalCount, pageNumber, pageSize⟩
  | items, totalCount, pageNumber, pageSize => throw (.invalid
      (issueOf "items" items ++ issueOf "total_count" totalCount ++
        issueOf "page_number" pageNumber ++ issueOf "page_size" pageSize))

end Page

end EntityQuery
