import Bindery.Settings
import Bindery.Source.Shelf

/-!
# Remote templates

A remote source asks a server for the address of a path under its base.  There is no connection to a
server here, so every request fails in transport.
-/

namespace Bindery

structure Remote where
  /-- without slashes at its end -/
  base : String
deriving DecidableEq

namespace Remote

def ofSettings (s : SourceSettings) : Remote := ⟨trimSlashes s.base⟩

def address (r : Remote) (path : String) : String := Address.resolve r.base path

/-- The failure to reach an address, which says nothing of the cause. -/
def unreachable (_address : String) : FetchError := ⟨"(transport)", none⟩

def retrieve (r : Remote) (path : String) : Fetched := .error (unreachable (r.address path))

end Remote

end Bindery
