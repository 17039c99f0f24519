import DoubleArrayTrie.Digest
import DoubleArrayTrie.Session.Basic
import DoubleArrayTrie.Text.Display
import DoubleArrayTrie.Workload
import DoubleArrayTrie.Proofs.Circular
import DoubleArrayTrie.Proofs.Pool.Rings
import DoubleArrayTrie.Proofs.Pool.Live
import DoubleArrayTrie.Proofs.Pool.FreeLists
import DoubleArrayTrie.Proofs.Pool.WellKept
import DoubleArrayTrie.Proofs.Pool.Taking
import DoubleArrayTrie.Proofs.Pool.Releasing
import DoubleArrayTrie.Proofs.Pool.Growing
import DoubleArrayTrie.Proofs.Pool.Placing
import DoubleArrayTrie.Proofs.Pool.Searching
import DoubleArrayTrie.Proofs.Trie.Chains
import DoubleArrayTrie.Proofs.Trie.Drawing
import DoubleArrayTrie.Proofs.Trie.Extent
import DoubleArrayTrie.Proofs.Trie.Outline
import DoubleArrayTrie.Proofs.Trie.Layout
import DoubleArrayTrie.Proofs.Trie.Linking
import DoubleArrayTrie.Proofs.Trie.Moving
import DoubleArrayTrie.Proofs.Trie.Joining
import DoubleArrayTrie.Proofs.Trie.Grafting
import DoubleArrayTrie.Proofs.Trie.Yielding
import DoubleArrayTrie.Proofs.Trie.Contents
import DoubleArrayTrie.Proofs.Trie.Relocating
import DoubleArrayTrie.Proofs.Trie.Reading
import DoubleArrayTrie.Proofs.Trie.Storing
import DoubleArrayTrie.Proofs.Trie.Erasing
import DoubleArrayTrie.Proofs.Calls
import DoubleArrayTrie.Proofs.Refinement
import DoubleArrayTrie.Proofs.Pool.Counting
import DoubleArrayTrie.Proofs.Structure
import DoubleArrayTrie.Proofs.Accounting
import DoubleArrayTrie.Proofs.Conflicts
import DoubleArrayTrie.Proofs.Erasure
import DoubleArrayTrie.Proofs.Pool.Lockstep
import DoubleArrayTrie.Proofs.Trie.Lockstep
import DoubleArrayTrie.Proofs.Lockstep
import DoubleArrayTrie.Proofs.Allocation
import DoubleArrayTrie.Proofs.Image.Decoding
import DoubleArrayTrie.Proofs.Image.RoundTrip
import DoubleArrayTrie.Proofs.Image.Encodable
import DoubleArrayTrie.Proofs.Sharing
import DoubleArrayTrie.Proofs.Overwriting
import DoubleArrayTrie.Proofs.Trie.Listing
import DoubleArrayTrie.Proofs.Trie.Enumerating
import DoubleArrayTrie.Proofs.Tearing
import DoubleArrayTrie.Proofs.Trie.Branches
import DoubleArrayTrie.Proofs.Creation
import DoubleArrayTrie.Proofs.Independence
import DoubleArrayTrie.Proofs.Programs.Basic
import DoubleArrayTrie.Proofs.Programs.Rings
import DoubleArrayTrie.Proofs.Programs.Slots
import DoubleArrayTrie.Proofs.Programs.Place
import DoubleArrayTrie.Proofs.Programs.Reading
import DoubleArrayTrie.Proofs.Programs.Linking
import DoubleArrayTrie.Proofs.Programs.Moving
import DoubleArrayTrie.Proofs.Programs.Storing
import DoubleArrayTrie.Proofs.Programs.Searching
import DoubleArrayTrie.Proofs.Safety
import DoubleArrayTrie.Proofs.GrowthPolicy
import DoubleArrayTrie.Proofs.LoadModes
import DoubleArrayTrie.Proofs.Answers
import DoubleArrayTrie.Proofs.Beginnings
import DoubleArrayTrie.Proofs.Scanning
import DoubleArrayTrie.Proofs.Recovery
import DoubleArrayTrie.Proofs.Placement
import DoubleArrayTrie.Proofs.Demands
import DoubleArrayTrie.Proofs.SingleSlots
import DoubleArrayTrie.Proofs.Rooting
import DoubleArrayTrie.Proofs.RejectBounds
import DoubleArrayTrie.Proofs.Programs.Rounds
import DoubleArrayTrie.Proofs.Programs.Loops
import DoubleArrayTrie.Proofs.Walks
import DoubleArrayTrie.Proofs.Terminals
import DoubleArrayTrie.Proofs.Siblings
