import Bindery.Error

/-!
# Template shelves

A shelf answers a request for a template from a fixed list of paths.  Of two entries with one path
the later counts; an unknown path fails with status 404.  A shelf counts its requests.
-/

namespace Bindery

abbrev Fetched := Except FetchError String

structure Shelf where
  entries : List (String × Fetched) := []
  requests : Nat := 0

namespace Shelf

def notFound : FetchError := ⟨"Not Found", some 404⟩

/-- The outcome under `path`; the last entry counts. -/
def outcome (entries : List (String × Fetched)) (path : String) : Fetched :=
  match (entries.filter (·.1 = path)).getLast? with
  | some e => e.2
  | none => .error notFound

/-- The outcome of a request, and the shelf with the request counted. -/
def retrieve (s : Shelf) (path : String) : Fetched × Shelf :=
  (outcome s.entries path, { s with requests := s.requests + 1 })

end Shelf

end Bindery
