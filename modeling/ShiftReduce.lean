import ShiftReduce.Text.Uppercase
import ShiftReduce.Text.Words
import ShiftReduce.OrderedSet
import ShiftReduce.Alphabet
import ShiftReduce.Grammar.Basic
import ShiftReduce.Grammar.Reader
import ShiftReduce.TerminalSets
import ShiftReduce.ItemSet
import ShiftReduce.Automaton
import ShiftReduce.Table.Basic
import ShiftReduce.Construction
import ShiftReduce.Machine
import ShiftReduce.Journal
import ShiftReduce.Command.Folder
import ShiftReduce.Main
import ShiftReduce.Proofs.Grammar.Augmentation
import ShiftReduce.Proofs.Grammar.BottomUp
import ShiftReduce.Proofs.Grammar.Productive
import ShiftReduce.Proofs.Grammar.Spelling
import ShiftReduce.Proofs.Grammar.Representation
import ShiftReduce.Proofs.Grammar.Printing
import ShiftReduce.Proofs.Grammar.Embedding
import ShiftReduce.Proofs.TerminalSets.Passes
import ShiftReduce.Proofs.TerminalSets.Forms
import ShiftReduce.Proofs.TerminalSets.Soundness
import ShiftReduce.Proofs.TerminalSets.Exactness
import ShiftReduce.Proofs.TerminalSets.Scanning
import ShiftReduce.Proofs.Automaton.Closure
import ShiftReduce.Proofs.Automaton.Collection
import ShiftReduce.Proofs.Automaton.ViablePrefix
import ShiftReduce.Proofs.Automaton.Chain
import ShiftReduce.Proofs.Automaton.Completion
import ShiftReduce.Proofs.Automaton.RowOrder
import ShiftReduce.Proofs.Automaton.Canonical
import ShiftReduce.Proofs.Automaton.WorkList
import ShiftReduce.Proofs.Automaton.ItemStack
import ShiftReduce.Proofs.Automaton.Growing
import ShiftReduce.Proofs.Automaton.Accessing
import ShiftReduce.Proofs.Table.Entries
import ShiftReduce.Proofs.Table.Cells
import ShiftReduce.Proofs.Table.Conflicts
import ShiftReduce.Proofs.Table.Condition
import ShiftReduce.Proofs.Table.Competing
import ShiftReduce.Proofs.Table.Filling
import ShiftReduce.Proofs.Table.Totality
import ShiftReduce.Proofs.Machine.Path
import ShiftReduce.Proofs.Machine.Stack
import ShiftReduce.Proofs.Machine.Soundness
import ShiftReduce.Proofs.Machine.Completeness
import ShiftReduce.Proofs.Machine.Verdict
import ShiftReduce.Proofs.Machine.Record
import ShiftReduce.Proofs.Machine.CorrectPrefix
import ShiftReduce.Proofs.Machine.Halting
import ShiftReduce.Proofs.Machine.Renumbering
import ShiftReduce.Proofs.Machine.Registers
import ShiftReduce.Proofs.Machine.Patching
import ShiftReduce.Proofs.Machine.Replay
import ShiftReduce.Proofs.Machine.Lookahead
import ShiftReduce.Proofs.Machine.UnknownTokens
import ShiftReduce.Proofs.Automaton.Discovery
import ShiftReduce.Proofs.Machine.Calls
import ShiftReduce.Proofs.Machine.Widening
import ShiftReduce.Proofs.Table.Views
import ShiftReduce.Proofs.Table.Reporting
import ShiftReduce.Proofs.Numbering.Interning
import ShiftReduce.Proofs.Automaton.ItemText
import ShiftReduce.Proofs.Diagram.Copying
import ShiftReduce.Proofs.Diagram.Reading
import ShiftReduce.Proofs.Automaton.StateLines
