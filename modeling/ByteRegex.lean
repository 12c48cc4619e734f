import ByteRegex.Automaton.Render
import ByteRegex.Automaton.Run
import ByteRegex.Event
import ByteRegex.Flat.Sink
import ByteRegex.Parser.Rule
import ByteRegex.Proofs.Places
import ByteRegex.Proofs.Runs
import ByteRegex.Reader.Buffered
import ByteRegex.Reader.Slice
import ByteRegex.Words
import ByteRegex.Proofs.Selection
import ByteRegex.Proofs.Shortening
import ByteRegex.Proofs.Optimization
import ByteRegex.Proofs.Slices
import ByteRegex.Proofs.Grouping
import ByteRegex.Proofs.Tables
import ByteRegex.Proofs.Arrows
import ByteRegex.Proofs.SubsetSearch
import ByteRegex.Proofs.Determinization
import ByteRegex.Proofs.Scanning
import ByteRegex.Proofs.Parsing
import ByteRegex.Proofs.Thompson
import ByteRegex.Proofs.Derivations
import ByteRegex.Proofs.ParserSoundness
import ByteRegex.Proofs.ParserCompleteness
import ByteRegex.Proofs.Compilation
import ByteRegex.Proofs.Recording
import ByteRegex.Proofs.Threads
import ByteRegex.Proofs.Streaming
import ByteRegex.Proofs.Buffering
import ByteRegex.Proofs.Reuse
import ByteRegex.Proofs.Closures
import ByteRegex.Proofs.Decoding
import ByteRegex.Proofs.Serialization
import ByteRegex.Proofs.Validation
import ByteRegex.Proofs.Flattening
import ByteRegex.Proofs.Stages
import ByteRegex.Proofs.Invariants
import ByteRegex.Proofs.Exporting
import ByteRegex.Proofs.Determinism
import ByteRegex.Proofs.TableWalk
import ByteRegex.Proofs.Merging
import ByteRegex.Proofs.Reduction
import ByteRegex.Proofs.EpsilonFree
import ByteRegex.Proofs.ArrowSets
import ByteRegex.Proofs.Exploration
import ByteRegex.Proofs.Alignment
import ByteRegex.Proofs.Trimness
import ByteRegex.Proofs.Loops
import ByteRegex.Proofs.ErrorPositions
import ByteRegex.Proofs.ReversedRanges
import ByteRegex.Proofs.Reencoding
import ByteRegex.Proofs.Loading
import ByteRegex.Proofs.Sessions
import ByteRegex.Proofs.Parentheses
import ByteRegex.Proofs.Renumbering
import ByteRegex.Proofs.Positions
import ByteRegex.Proofs.Listing
import ByteRegex.Proofs.Offsets
import ByteRegex.Proofs.Endings
import ByteRegex.Proofs.Rounds
import ByteRegex.Proofs.Edits
import ByteRegex.Proofs.IndexSets
