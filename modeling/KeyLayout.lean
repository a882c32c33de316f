import KeyLayout.Main
import KeyLayout.Model.OutlineText
import KeyLayout.Proofs.Command.Interruption
import KeyLayout.Proofs.Command.Listing
import KeyLayout.Proofs.Command.Root
import KeyLayout.Proofs.Command.Showing
import KeyLayout.Proofs.Document.Agreement
import KeyLayout.Proofs.Document.Encoding
import KeyLayout.Proofs.Document.Keycodes
import KeyLayout.Proofs.Document.Numbering
import KeyLayout.Proofs.Document.Paths
import KeyLayout.Proofs.Document.Reads
import KeyLayout.Proofs.Document.RoundTrip
import KeyLayout.Proofs.Document.TextCuts
import KeyLayout.Proofs.Document.Untouched
import KeyLayout.Proofs.Document.WellNested
import KeyLayout.Proofs.Load.Assembly
import KeyLayout.Proofs.Load.Blame
import KeyLayout.Proofs.Load.Cycles
import KeyLayout.Resource.Directory
import KeyLayout.Proofs.Markup.Completion
import KeyLayout.Proofs.Markup.Decisions
import KeyLayout.Proofs.Markup.LastBytes
import KeyLayout.Proofs.Document.Ending
import KeyLayout.Proofs.Document.Offsets
import KeyLayout.Proofs.Document.Remarks
import KeyLayout.Proofs.Document.Warnings
import KeyLayout.Proofs.Load.Lookup
import KeyLayout.Proofs.Load.OutlineOrder
import KeyLayout.Proofs.Model.Enclosure
import KeyLayout.Proofs.Model.OutlineHandles
import KeyLayout.Proofs.Number.Prefixed
