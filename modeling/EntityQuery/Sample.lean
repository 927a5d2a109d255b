import EntityQuery.Store.Engine

/-! A sample schema with its records: a blog of users, posts, comments and profiles, a tree of
categories, and teams whose members have a composite key. -/

namespace EntityQuery.Sample

/-- A column of numbers whose field has its name. -/
def number (name : String) : Column := ⟨name, name, .integer, .null⟩

/-- A relation that leads to the records in whose column the number of an own column stands. -/
def byNumber (name target : String) (toMany : Bool) (own other : String) : Link String :=
  { name, target, toMany, condition := { equal := [(number own, number other)] } }

def user : Model String where
  name := "User"
  columns := [number "id", ⟨"name", "name", .text, .null⟩, ⟨"email", "email", .text, .null⟩,
    number "age"]
  primaryKey := ["id"]
  links := [byNumber "posts" "Post" true "id" "author_id",
    byNumber "profile" "Profile" false "id" "user_id"]

def post : Model String where
  name := "Post"
  columns := [number "id", ⟨"title", "title", .text, .null⟩,
    ⟨"published", "published", .boolean, .int 0⟩, number "author_id"]
  primaryKey := ["id"]
  links := [byNumber "author" "User" false "author_id" "id",
    byNumber "comments" "Comment" true "id" "post_id"]

def comment : Model String where
  name := "Comment"
  columns := [number "id", ⟨"body", "content", .text, .null⟩, number "post_id"]
  primaryKey := ["id"]
  links := [byNumber "post" "Post" false "post_id" "id"]

def profile : Model String where
  name := "Profile"
  columns := [number "id", ⟨"bio", "bio", .text, .null⟩, number "user_id"]
  primaryKey := ["id"]
  links := [byNumber "user" "User" false "user_id" "id"]

def category : Model String where
  name := "Category"
  columns := [number "id", ⟨"label", "label", .text, .null⟩,
    ⟨"rank", "order", .integer, .null⟩, ⟨"note", "Note", .text, .null⟩,
    number "parent_id"]
  primaryKey := ["id"]
  links := [byNumber "parent" "Category" false "parent_id" "id",
    byNumber "children" "Category" true "id" "parent_id"]

def team : Model String where
  name := "Team"
  columns := [number "id", ⟨"title", "title", .text, .null⟩]
  primaryKey := ["id"]
  links := [byNumber "members" "Member" true "id" "team_id"]

def member : Model String where
  name := "Member"
  columns := [number "team_id", ⟨"no", "member_no", .integer, .null⟩, ⟨"nick", "nick", .text, .null⟩]
  primaryKey := ["team_id", "no"]
  links := [byNumber "team" "Team" false "team_id" "id"]

/-- The models by name, in alphabetical order. -/
def models : List (Model String) := [category, comment, member, post, profile, team, user]

def names : List String := models.map (·.name)

/-- The models of the blog. -/
def blogNames : List String := ["User", "Post", "Comment", "Profile"]

def mapping : Mapping String :=
  ⟨fun name => (models.find? (·.name = name)).getD ⟨name, [], [], []⟩⟩

/-- A record of a model from its cells in column order. -/
def record (m : Model String) (cells : List Cell) : Record := (m.columns.map (·.name)).zip cells

/-- A number below a hundred in two digits. -/
def twoDigits (n : Nat) : String := if n < 10 then "0" ++ toString n else toString n

/-- The users from the fourth to the fifteenth, all of one age. -/
def moreUsers : List Record :=
  (List.range 12).map fun i => record user
    [.int (i + 4 : Nat), .text ("user" ++ twoDigits (i + 4)), .text s!"u{i + 4}@example.com", .int 40]

def table : String → List Record
  | "User" =>
    [record user [.int 1, .text "john", .text "john@example.com", .int 30],
      record user [.int 2, .text "jane", .text "jane@example.com", .int 25],
      record user [.int 3, .text "bob", .text "bob@example.com", .null]] ++ moreUsers
  | "Post" =>
    [record post [.int 1, .text "Hello", .int 1, .int 1],
      record post [.int 2, .text "Draft", .int 0, .int 1],
      record post [.int 3, .text "Jane's post", .int 1, .int 2],
      record post [.int 4, .text "100% sure", .int 1, .int 4],
      record post [.int 5, .text "hello", .int 0, .int 4]]
  | "Comment" =>
    [record comment [.int 1, .text "Nice", .int 1], record comment [.int 2, .text "Great", .int 1],
      record comment [.int 3, .text "a_b", .int 3], record comment [.int 4, .text "Nice", .int 5]]
  | "Profile" =>
    [record profile [.int 1, .text "Writer", .int 1], record profile [.int 2, .text "Editor", .int 4]]
  | "Category" =>
    [record category [.int 1, .text "root", .int 1, .null, .null],
      record category [.int 2, .text "left", .int 5, .text "x", .int 1],
      record category [.int 3, .text "right", .int 2, .text "y", .int 1],
      record category [.int 4, .text "leaf", .null, .text "x", .int 2],
      record category [.int 5, .text "lone", .int 5, .null, .null]]
  | "Team" =>
    [record team [.int 1, .text "red"], record team [.int 2, .text "blue"],
      record team [.int 3, .text "empty"]]
  | "Member" =>
    [record member [.int 1, .int 1, .text "ann"], record member [.int 1, .int 2, .text "ben"],
      record member [.int 2, .int 1, .text "cat"], record member [.int 2, .int 3, .text "ann"]]
  | _ => []

/-- The search for a pattern of plain characters, which `^` ties to the start of a text. -/
def search (pattern s : String) : Bool :=
  match pattern.toList with
  | '^' :: start => start.isPrefixOf s.toList
  | part => (Like.suffixes s.toList).any part.isPrefixOf

/-- SQLite, which searches texts for plain patterns. -/
def engine : Engine String := .sqlite fun _ cell pattern =>
  match cell, pattern with
  | .text s, .str p => .ofBool (search p s)
  | _, _ => .unknown

def records : Database String := { records := table, engine }

end EntityQuery.Sample
