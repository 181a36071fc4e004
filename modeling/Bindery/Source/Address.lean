/-!
# Addresses of templates

A template's path is joined to a base address.  A path that is an address of its own, and any path
when there is no base, stays as it is.

* `trimSlashes`        a base without the slashes at its end
* `Address.resolve`    the address of a path
-/

namespace Bindery

/-- The text without the slashes at its end. -/
def trimSlashes (s : String) : String :=
  String.ofList (s.toList.reverse.dropWhile (· = '/')).reverse

namespace Address

/-- The path names a scheme and so needs no base. -/
def isAbsolute (path : String) : Bool :=
  "http://".toList.isPrefixOf path.toList || "https://".toList.isPrefixOf path.toList

/-- The address of `path` under `base`, with one slash between them. -/
def resolve (base path : String) : String :=
  if base = "" ∨ isAbsolute path then path
  else base ++ "/" ++ String.ofList (path.toList.dropWhile (· = '/'))

end Address

end Bindery
