import Bindery.Page.Basic
import Bindery.Value.Summary

/-!
# Summaries

Buses, models and elements written for people, one line each.  A text is shown between quotes.
-/

namespace Bindery

def Registry.summary {L : Type} (r : Registry L) : String :=
  "EventBus \x7b channels: " ++ toString r.channels.length ++ ", in_flight: ["
    ++ ", ".intercalate (r.inFlight.map Text.shown) ++ "] \x7d"

namespace Model

def summaryOfValues (values : Record) : String :=
  "\x7b" ++ ", ".intercalate (values.map fun f => Text.shown f.1 ++ ": " ++ f.2.summary) ++ "\x7d"

/-- Name and values; the rest is left out. -/
def summary (m : Model) : String :=
  "ObservableData \x7b model: " ++ Text.shown m.name ++ ", values: " ++ summaryOfValues m.values
    ++ ", .. \x7d"

end Model

/-- Tag and attributes; the rest is left out. -/
def PageElement.summary {κ : Type} (d : PageElement κ) : String :=
  let pairs := d.attributes.entries.map fun e =>
    "(" ++ Text.shown e.1 ++ ", " ++ Text.shown e.2 ++ ")"
  "Element \x7b tag: " ++ Text.shown d.tag ++ ", attributes: [" ++ ", ".intercalate pairs
    ++ "], .. \x7d"

end Bindery
