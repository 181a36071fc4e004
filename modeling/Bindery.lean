import Bindery.Session.Run
import Bindery.Source.Remote
import Bindery.Proofs.Bus.Channels
import Bindery.Proofs.Bus.Numbered
import Bindery.Proofs.Bus.Plain
import Bindery.Proofs.Engine.Runs
import Bindery.Proofs.Page.Store
import Bindery.Proofs.Bus.Places
import Bindery.Proofs.Bus.Refinement
import Bindery.Proofs.Engine.Publishing
import Bindery.Proofs.Markup.Property
import Bindery.Proofs.Page.Alive
import Bindery.Proofs.Template.Filling
import Bindery.Proofs.Template.Spelling
import Bindery.Proofs.Template.Occurrences
import Bindery.Proofs.Template.Emptying
import Bindery.Proofs.Engine.Quiet
import Bindery.Proofs.Binding.Wiring
import Bindery.Proofs.Page.Content
import Bindery.Proofs.Page.Reachable
import Bindery.Proofs.Page.Trees
import Bindery.Proofs.Binding.Replay
import Bindery.Proofs.Binding.Edit
import Bindery.Proofs.Binding.WriteBack
import Bindery.Proofs.Binding.Children
import Bindery.Proofs.Markup.Escaping
import Bindery.Proofs.Markup.References
import Bindery.Proofs.Markup.Names
import Bindery.Proofs.Markup.Tags
import Bindery.Proofs.Markup.Naming
import Bindery.Proofs.Markup.Ordering
import Bindery.Proofs.Markup.Scanned
import Bindery.Proofs.Markup.RoundTrip
import Bindery.Proofs.Markup.Settling
import Bindery.Proofs.Markup.Begun
import Bindery.Proofs.Markup.Unsettled
import Bindery.Proofs.Page.RoundTrip
import Bindery.Proofs.Page.Settling
import Bindery.Proofs.View.Populating
import Bindery.Proofs.Binding.Sync
import Bindery.Proofs.Binding.Reentrancy
import Bindery.Proofs.Binding.Joining
import Bindery.Proofs.Binding.Reached
import Bindery.Proofs.Page.Flights
import Bindery.Proofs.Engine.Routine
import Bindery.Proofs.Engine.Within
import Bindery.Proofs.Engine.Plan
import Bindery.Proofs.Engine.Moments
import Bindery.Proofs.Engine.History
import Bindery.Proofs.Engine.Careful
import Bindery.Proofs.Engine.Preserving
import Bindery.Proofs.Engine.Balance
import Bindery.Proofs.Engine.Stages
import Bindery.Proofs.Bus.Discipline
import Bindery.Proofs.Engine.Returning
import Bindery.Proofs.Binding.Tying
import Bindery.Proofs.Binding.Isolation
import Bindery.Proofs.Binding.Calm
import Bindery.Proofs.View.Life
import Bindery.Proofs.View.Standing
import Bindery.Proofs.View.Turns
import Bindery.Proofs.Binding.Deeds
import Bindery.Proofs.Binding.Trail
import Bindery.Proofs.Binding.Tracing
import Bindery.Proofs.View.Tracing
import Bindery.Proofs.Page.Neat
import Bindery.Proofs.Page.Untouched
import Bindery.Proofs.Engine.Avoiding
import Bindery.Proofs.View.Stopping
import Bindery.Proofs.Binding.LastShown
import Bindery.Proofs.Binding.Bonds
import Bindery.Proofs.Binding.Repeating
import Bindery.Proofs.Binding.Entering
import Bindery.Proofs.Binding.Converging
import Bindery.Proofs.View.Discarded
import Bindery.Proofs.Template.Announced
import Bindery.Proofs.Binding.Making
import Bindery.Proofs.Binding.Accounting
import Bindery.Proofs.Binding.Truth
import Bindery.Proofs.Binding.Permuting
import Bindery.Proofs.Markup.Edits
import Bindery.Proofs.Page.Edited
import Bindery.Proofs.Markup.Selecting
import Bindery.Proofs.Page.Query
import Bindery.Proofs.Markup.Placing
import Bindery.Proofs.Markup.Agreeing
import Bindery.Proofs.Page.AttributeOrder
import Bindery.Proofs.Number.Longest
import Bindery.Proofs.Text.Offsets
import Bindery.Proofs.Number.Offsets
import Bindery.Proofs.Binding.NumberInput
import Bindery.Proofs.Markup.Replacing
import Bindery.Proofs.Markup.Progress
import Bindery.Proofs.Page.WrittenOrder
import Bindery.Proofs.Bus.Operations
import Bindery.Proofs.Bus.Handles
import Bindery.Proofs.Bus.Histories
