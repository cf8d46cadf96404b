import SpokenOrder.Main
import SpokenOrder.Proofs.Item.Uids
import SpokenOrder.Proofs.Cart.WellNumbered
import SpokenOrder.Proofs.Grammar.Derivation
import SpokenOrder.Proofs.Particulars.Merge
import SpokenOrder.Proofs.Phrase.Build
import SpokenOrder.Proofs.Intent.Edit
import SpokenOrder.Proofs.Cart.Identity
import SpokenOrder.Proofs.Lattice.Path
import SpokenOrder.Proofs.Lattice.Heaviest
import SpokenOrder.Proofs.Interpretation.Understood
import SpokenOrder.Proofs.Cart.Invariant
import SpokenOrder.Proofs.Interpretation.Winner
import SpokenOrder.Proofs.Composition.Legal
import SpokenOrder.Proofs.Composition.Exclusive
import SpokenOrder.Proofs.Run.Group
import SpokenOrder.Proofs.Run.Segment
import SpokenOrder.Proofs.Grammar.Captures
import SpokenOrder.Proofs.Particulars.Used
import SpokenOrder.Proofs.Lattice.Tokenization
import SpokenOrder.Proofs.Phrase.Score
import SpokenOrder.Proofs.Reference.Score
import SpokenOrder.Proofs.Intent.Score
import SpokenOrder.Proofs.Interpretation.Score
import SpokenOrder.Proofs.Particulars.Accounting
import SpokenOrder.Proofs.Intent.Progress
import SpokenOrder.Proofs.Cart.Frame
import SpokenOrder.Proofs.Composition.Sold
import SpokenOrder.Proofs.Lattice.Restrict
import SpokenOrder.Proofs.Reference.Named
import SpokenOrder.Proofs.Menu.Matrix
import SpokenOrder.Proofs.Menu.Authoring
import SpokenOrder.Proofs.Particulars.Admission
import SpokenOrder.Proofs.Phrase.Agreement
import SpokenOrder.Proofs.Intent.Words
import SpokenOrder.Proofs.Particulars.Quantity
import SpokenOrder.Proofs.Composition.Removed
import SpokenOrder.Proofs.Lattice.Rounding
import SpokenOrder.Proofs.Lattice.Connected
import SpokenOrder.Proofs.Lexicon.Readable
import SpokenOrder.Proofs.Lattice.Route
import SpokenOrder.Proofs.Lattice.Walk
import SpokenOrder.Proofs.Run.Cut
import SpokenOrder.Proofs.Run.Odometer
import SpokenOrder.Proofs.Reference.Ranked
import SpokenOrder.Proofs.Menu.Selection
import SpokenOrder.Proofs.Menu.Wildcard
import SpokenOrder.Proofs.Composition.Disjoint
import SpokenOrder.Proofs.Particulars.Phrase
import SpokenOrder.Proofs.Particulars.Attributes
import SpokenOrder.Proofs.Particulars.Tally
import SpokenOrder.Proofs.Phrase.Reshape
import SpokenOrder.Proofs.Phrase.Usable
import SpokenOrder.Proofs.Composition.Gate
import SpokenOrder.Proofs.Particulars.Acceptance
import SpokenOrder.Proofs.Lattice.Canonical
import SpokenOrder.Proofs.Lattice.Excerpt
import SpokenOrder.Proofs.Run.Partition
import SpokenOrder.Proofs.Interpretation.Counted
import SpokenOrder.Proofs.Particulars.Language
import SpokenOrder.Proofs.Phrase.Balance
import SpokenOrder.Proofs.Reference.Options
import SpokenOrder.Proofs.Intent.TakenOff
import SpokenOrder.Proofs.Cart.Recorded
import SpokenOrder.Proofs.Item.Splice
import SpokenOrder.Proofs.Cart.Store
import SpokenOrder.Proofs.Text.Numeral
import SpokenOrder.Proofs.Menu.KeyMatcher
import SpokenOrder.Proofs.Text.Words
import SpokenOrder.Proofs.Lexicon.Recognition
import SpokenOrder.Proofs.Grammar.Cursor
import SpokenOrder.Proofs.Interpretation.Slots
