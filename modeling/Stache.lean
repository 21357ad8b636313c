import Stache.Command.Disk
import Stache.Main
import Stache.Traversal.Edit
import Stache.Traversal.Visits
import Stache.Tree.Agree
import Stache.Proofs.Layout.Content
import Stache.Proofs.Tree.Alike
import Stache.Proofs.Layout.Frame
import Stache.Layout.InPlace
import Stache.Proofs.Layout.Idempotent
import Stache.Proofs.Layout.InPlace
import Stache.Proofs.Layout.Monotone
import Stache.Proofs.Layout.Lossless
import Stache.Proofs.Grammar.Reads
import Stache.Proofs.Grammar.Sound
import Stache.Proofs.Grammar.Spelled
import Stache.Proofs.Grammar.Complete
import Stache.Proofs.Token.Tiles
import Stache.Proofs.Layout.Chains
import Stache.Proofs.Layout.Local
import Stache.Proofs.Layout.Closings
import Stache.Proofs.Layout.Inverted
import Stache.Proofs.Traversal.Rewrite
import Stache.Proofs.Traversal.Preorder
import Stache.Proofs.Grammar.WellFormed
import Stache.Proofs.Grammar.Seams
import Stache.Proofs.Token.Joined
import Stache.Proofs.Grammar.Unfinished
import Stache.Proofs.Grammar.Bodies
import Stache.Proofs.Grammar.Links
import Stache.Proofs.Grammar.Escape
import Stache.Proofs.Source.Boundary
import Stache.Proofs.Token.Faults
import Stache.Proofs.Grammar.Refusals
import Stache.Proofs.Grammar.Shown
import Stache.Proofs.Token.InTag
import Stache.Proofs.Grammar.Paths
import Stache.Proofs.Grammar.ClosingNames
import Stache.Proofs.Grammar.Listing
import Stache.Proofs.Grammar.Modifiers
import Stache.Proofs.Grammar.ReadBack
import Stache.Proofs.Grammar.ElseChains
import Stache.Proofs.Grammar.Brackets
import Stache.Proofs.Grammar.BlockHeads
import Stache.Proofs.Grammar.CallPaths
import Stache.Proofs.Grammar.Quotes
import Stache.Proofs.Grammar.Comments
import Stache.Proofs.Grammar.RawBlocks
import Stache.Proofs.Grammar.HashKeys
import Stache.Proofs.Layout.Indents
import Stache.Proofs.Traversal.Printer
import Stache.Proofs.Grammar.SourceNames
import Stache.Proofs.Grammar.Squares
import Stache.Proofs.Source.LineTable
import Stache.Proofs.Grammar.UnclosedRaw
