import LogicTrainer.Main
import LogicTrainer.Formula.Grammar
import LogicTrainer.History.Desk
import LogicTrainer.History.Reader
import LogicTrainer.Random.Script
import LogicTrainer.TruthTable.Grading
import LogicTrainer.Proofs.Formula.Splitting
import LogicTrainer.Proofs.Formula.Reading
import LogicTrainer.Proofs.Token.Lexing
import LogicTrainer.Proofs.Formula.StrictForm
import LogicTrainer.Proofs.Text.Capital
import LogicTrainer.Proofs.Reduction.Firing
import LogicTrainer.Proofs.Reduction.Grounding
import LogicTrainer.Proofs.Reduction.Contraction
import LogicTrainer.Proofs.Entries
import LogicTrainer.Proofs.Assignment
import LogicTrainer.Proofs.Text.Order
import LogicTrainer.Proofs.Formula.Variables
import LogicTrainer.Proofs.Formula.Parts
import LogicTrainer.Proofs.Reduction.Session
import LogicTrainer.Proofs.TruthTable.Rows
import LogicTrainer.Proofs.CommandLine.Run
import LogicTrainer.Proofs.CommandLine.Reading
import LogicTrainer.Proofs.Yaml.Reader
import LogicTrainer.Proofs.Settings
import LogicTrainer.Proofs.TruthTable.Columns
import LogicTrainer.Proofs.TruthTable.Tabulation
import LogicTrainer.Proofs.TruthTable.Tautology
import LogicTrainer.Proofs.Grouping
import LogicTrainer.Proofs.Reduction.History
import LogicTrainer.Proofs.Reduction.Bracketed
import LogicTrainer.Proofs.Random.Draws
import LogicTrainer.Proofs.Problem.Structured
import LogicTrainer.Proofs.Reduction.Order
import LogicTrainer.Proofs.TruthTable.Grading
import LogicTrainer.Proofs.TruthTable.Filling
import LogicTrainer.Proofs.Json.Scalars
import LogicTrainer.Proofs.Json.RoundTrip
import LogicTrainer.Proofs.Json.Printed
import LogicTrainer.Proofs.Text.Lines
import LogicTrainer.Proofs.Storage.Files
import LogicTrainer.Proofs.History.Records
import LogicTrainer.Proofs.History.Ledger
import LogicTrainer.Proofs.History.Lines
import LogicTrainer.Proofs.Reduction.Solving
import LogicTrainer.Proofs.Reduction.Flat
import LogicTrainer.Proofs.Reduction.Redundancy
import LogicTrainer.Proofs.Formula.Depth
import LogicTrainer.Proofs.Reduction.Dependence
import LogicTrainer.Proofs.Grouping.Answers
import LogicTrainer.Proofs.Formula.Blanks
import LogicTrainer.Proofs.Formula.Composition
import LogicTrainer.Proofs.Problem.Depth
import LogicTrainer.Proofs.Formula.Continuation
import LogicTrainer.Proofs.Problem.Flat
import LogicTrainer.Proofs.Problem.Length
import LogicTrainer.Proofs.CommandLine.Pairs
import LogicTrainer.Proofs.Formula.Renaming
import LogicTrainer.Proofs.Token.LetterCase
import LogicTrainer.Proofs.TruthTable.LetterCase
import LogicTrainer.Proofs.Text.Pieces
import LogicTrainer.Proofs.CommandLine.Table
import LogicTrainer.Proofs.Formula.Slices
import LogicTrainer.Proofs.Token.Cutting
import LogicTrainer.Proofs.Token.DoubleArrows
import LogicTrainer.Proofs.Reduction.Sweeping
import LogicTrainer.Proofs.Reduction.Listing
import LogicTrainer.Proofs.Formula.VariableLists
import LogicTrainer.Proofs.TruthTable.Enumeration
import LogicTrainer.Proofs.Assignment.Spellings
