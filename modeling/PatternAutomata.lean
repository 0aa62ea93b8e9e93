import PatternAutomata.Main
import PatternAutomata.Expr.Language
import PatternAutomata.Expr.Derivation
import PatternAutomata.Pattern
import PatternAutomata.Graph.Walk
import PatternAutomata.Proofs.Rpn.Room
import PatternAutomata.Proofs.Rpn.Postorder
import PatternAutomata.Proofs.Rpn.Surplus
import PatternAutomata.Proofs.Graph.Search
import PatternAutomata.Proofs.Graph.Walk
import PatternAutomata.Proofs.Graph.Part
import PatternAutomata.Proofs.Graph.Copy
import PatternAutomata.Proofs.Graph.Makes
import PatternAutomata.Proofs.Builder.Language
import PatternAutomata.Pattern.Language
import PatternAutomata.Proofs.Automaton.Run
import PatternAutomata.Proofs.Pattern.Denotes
import PatternAutomata.Proofs.Scan.Feed
import PatternAutomata.Proofs.Scan.Spelling
import PatternAutomata.Proofs.Scan.Cuts
import PatternAutomata.Proofs.Scan.Longest
import PatternAutomata.Proofs.Compile
import PatternAutomata.Proofs.Graph.Orderly
import PatternAutomata.Proofs.Graph.Owns
import PatternAutomata.Proofs.Graph.Assembles
import PatternAutomata.Proofs.Builder.Ownership
import PatternAutomata.Proofs.Automaton.Shape
import PatternAutomata.Proofs.Rpn.Contents
import PatternAutomata.Proofs.Rpn.Nesting
import PatternAutomata.Proofs.Scan.Nesting
import PatternAutomata.Proofs.Stages
import PatternAutomata.Proofs.Scan.Inverse
import PatternAutomata.Proofs.Graph.Embeds
import PatternAutomata.Proofs.Builder.Follows
import PatternAutomata.Proofs.Builder.Relabel
import PatternAutomata.Proofs.Builder.Expansion
import PatternAutomata.Proofs.Rpn.Grouped
import PatternAutomata.Proofs.Scan.Grouped
import PatternAutomata.Proofs.Grouped
import PatternAutomata.Proofs.Builder.Taken
import PatternAutomata.Proofs.Debug
import PatternAutomata.Proofs.CommandLine
import PatternAutomata.Proofs.Text.Lines
import PatternAutomata.Proofs.Builder.Labels
import PatternAutomata.Proofs.Automaton.Dump
import PatternAutomata.Proofs.Text.Columns
import PatternAutomata.Proofs.Text.Offsets
import PatternAutomata.Proofs.Scan.Faults
import PatternAutomata.Proofs.Blame
import PatternAutomata.Proofs.Places
import PatternAutomata.Proofs.Builder.Height
import PatternAutomata.Proofs.Rpn.OpenGroups
import PatternAutomata.Proofs.Rpn.MoreRoom
import PatternAutomata.Proofs.Rpn.Faults
import PatternAutomata.Proofs.Rpn.Conserved
import PatternAutomata.Proofs.Scan.Leftmost
import PatternAutomata.Proofs.Scan.Room
import PatternAutomata.Proofs.Graph.Distance
import PatternAutomata.Proofs.Graph.BreadthFirst
import PatternAutomata.Proofs.Automaton.Reach
import PatternAutomata.Proofs.Automaton.Path
import PatternAutomata.Proofs.Builder.Copies
import PatternAutomata.Proofs.Builder.Checked
import PatternAutomata.Proofs.Expr.Postorder
import PatternAutomata.Proofs.Graph.Labels
import PatternAutomata.Proofs.Builder.Inventory
import PatternAutomata.Proofs.Builder.Provenance
import PatternAutomata.Proofs.Automaton.Drawing
import PatternAutomata.Proofs.Caret
