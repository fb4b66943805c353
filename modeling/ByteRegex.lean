import ByteRegex.ByteSet.Describe
import ByteRegex.Utf8
import ByteRegex.Partition
import ByteRegex.Tuning
import ByteRegex.Pattern.Parser
import ByteRegex.Nfa.Thompson
import ByteRegex.Dfa.Minimize
import ByteRegex.Dfa.Subset
import ByteRegex.Database.Stored
import ByteRegex.Compile
import ByteRegex.Matcher
import ByteRegex.Sample.Comparison
import ByteRegex.Proofs.Walk
import ByteRegex.Proofs.Utf8
import ByteRegex.Proofs.Utf8.Runs
import ByteRegex.Proofs.CodePointSet
import ByteRegex.Proofs.Matches
import ByteRegex.Proofs.Matcher
import ByteRegex.Proofs.Nfa.Path
import ByteRegex.Proofs.Nfa.Fragment
import ByteRegex.Proofs.Nfa.Preference
import ByteRegex.Proofs.ByteSet.Words
import ByteRegex.Proofs.ByteSet
import ByteRegex.Proofs.ByteSet.Runs
import ByteRegex.Proofs.ByteSet.Members
import ByteRegex.Proofs.ByteSet.Describe
import ByteRegex.Proofs.Listing
import ByteRegex.Proofs.Nfa.Build
import ByteRegex.Proofs.Nfa.Visit
import ByteRegex.Proofs.Nfa.Trie
import ByteRegex.Proofs.Nfa.Thompson
import ByteRegex.Proofs.Nfa.Closed
import ByteRegex.Proofs.Nfa.Language
import ByteRegex.Proofs.Nfa.Reverse
import ByteRegex.Proofs.Dfa.Machine
import ByteRegex.Proofs.Table.Scan
import ByteRegex.Proofs.Table.Encode
import ByteRegex.Proofs.Table.Exact
import ByteRegex.Proofs.Dfa.Worklist
import ByteRegex.Proofs.Partition
import ByteRegex.Proofs.Partition.Splits
import ByteRegex.Proofs.Dfa.Keep
import ByteRegex.Proofs.Dfa.Minimize
import ByteRegex.Proofs.Dfa.Subset
import ByteRegex.Proofs.Dfa.Threads
import ByteRegex.Proofs.Dfa.Limit
import ByteRegex.Proofs.Dfa.Exact
import ByteRegex.Proofs.Dfa.Trail
import ByteRegex.Proofs.Dfa.Preference
import ByteRegex.Proofs.Alphabet
import ByteRegex.Proofs.Compile
import ByteRegex.Proofs.Database
import ByteRegex.Proofs.Table.Valid
import ByteRegex.Proofs.Table.Guard
import ByteRegex.Proofs.Files
import ByteRegex.Proofs.Answers
import ByteRegex.Proofs.Stored
import ByteRegex.Proofs.Scan
import ByteRegex.Proofs.Coverage
import ByteRegex.Proofs.Nfa.Budget
import ByteRegex.Proofs.Dfa.Budget
import ByteRegex.Proofs.Dfa.Discovery
import ByteRegex.Proofs.Outcome
import ByteRegex.Proofs.Dfa.Acceptance
import ByteRegex.Proofs.CodePoints
import ByteRegex.Proofs.Pattern.Render
import ByteRegex.Proofs.Pattern.RoundTrip
import ByteRegex.Proofs.Dfa.LateLooks
import ByteRegex.Proofs.Dfa.Minimal
import ByteRegex.Proofs.Dfa.Shape
import ByteRegex.Proofs.Dfa.Prune
import ByteRegex.Proofs.Alphabet.Exact
import ByteRegex.Proofs.Alphabet.Decoding
import ByteRegex.Proofs.Nullable
import ByteRegex.Proofs.Draws
import ByteRegex.Proofs.Sample.PatternText
import ByteRegex.Proofs.Pattern.Places
import ByteRegex.Proofs.Mix
import ByteRegex.Proofs.Overrides
import ByteRegex.Proofs.Nfa.Acyclic
import ByteRegex.Proofs.Sample.Corpus
import ByteRegex.Proofs.Sample.Comparison
