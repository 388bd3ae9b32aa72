import GoLift.Assembly
import GoLift.CommandLine.Log
import GoLift.CommandLine.Options
import GoLift.CommandLine.Run
import GoLift.Decompile
import GoLift.Fault
import GoLift.File.Fault
import GoLift.File.Path
import GoLift.File.Store
import GoLift.Go.Ast
import GoLift.Go.Name
import GoLift.Go.Printer
import GoLift.IR.Flow
import GoLift.IR.Program
import GoLift.IR.Ty
import GoLift.IR.Value
import GoLift.Json.Basic
import GoLift.Json.Reader
import GoLift.Lower.Draft
import GoLift.Lower.Function
import GoLift.Lower.Instr
import GoLift.Lower.Type
import GoLift.Lower.Value
import GoLift.Main
import GoLift.Number.Double
import GoLift.Number.Literal
import GoLift.Number.Shortest
import GoLift.Phi
import GoLift.Proofs.Assembly
import GoLift.Proofs.Decompile
import GoLift.Proofs.Function.Forms
import GoLift.Proofs.Function.Names
import GoLift.Proofs.Function.Prevented
import GoLift.Proofs.Function.Variables
import GoLift.Proofs.Go.Blocks
import GoLift.Proofs.Go.Constants
import GoLift.Proofs.Go.Distinct
import GoLift.Proofs.Go.Eval
import GoLift.Proofs.Go.Fate
import GoLift.Proofs.Go.Grammar
import GoLift.Proofs.Go.Integers
import GoLift.Proofs.Go.Legible
import GoLift.Proofs.Go.Lexer
import GoLift.Proofs.Go.Names
import GoLift.Proofs.Go.Occurs
import GoLift.Proofs.Go.Outline
import GoLift.Proofs.Go.Parallel
import GoLift.Proofs.Go.Parts
import GoLift.Proofs.Go.Pieces
import GoLift.Proofs.Go.Plain
import GoLift.Proofs.Go.Readback
import GoLift.Proofs.Go.Run
import GoLift.Proofs.Go.Usable
import GoLift.Proofs.IR.Bits
import GoLift.Proofs.IR.Flow
import GoLift.Proofs.IR.Uses
import GoLift.Proofs.Lower.Assigned
import GoLift.Proofs.Lower.Code
import GoLift.Proofs.Lower.Components
import GoLift.Proofs.Lower.Constants
import GoLift.Proofs.Lower.Conversions
import GoLift.Proofs.Lower.Emits
import GoLift.Proofs.Lower.Forms
import GoLift.Proofs.Lower.Integers
import GoLift.Proofs.Lower.Memory
import GoLift.Proofs.Lower.Statements
import GoLift.Proofs.Lower.Steady
import GoLift.Proofs.Lower.Types
import GoLift.Proofs.Module.Closed
import GoLift.Proofs.Module.Jobs
import GoLift.Proofs.Module.Outcomes
import GoLift.Proofs.Module.Structs
import GoLift.Proofs.Module.TopLevel
import GoLift.Proofs.Phi.Buffer
import GoLift.Proofs.Phi.Copies
import GoLift.Proofs.Phi.Decision
import GoLift.Proofs.Phi.Elimination
import GoLift.Proofs.Phi.Lost
import GoLift.Proofs.Phi.Simultaneous
import GoLift.Proofs.Phi.Ssa
import GoLift.Proofs.Phi.Temporaries
import GoLift.Proofs.Phi.Unobserved
import GoLift.Proofs.Phi.Validation
import GoLift.Proofs.Region.Accounting
import GoLift.Proofs.Region.Apply
import GoLift.Proofs.Region.Assigned
import GoLift.Proofs.Region.Built
import GoLift.Proofs.Region.Consumed
import GoLift.Proofs.Region.Effect
import GoLift.Proofs.Region.Faithful
import GoLift.Proofs.Region.Forms
import GoLift.Proofs.Region.Graph
import GoLift.Proofs.Region.History
import GoLift.Proofs.Region.InPlace
import GoLift.Proofs.Region.Independent
import GoLift.Proofs.Region.Layout
import GoLift.Proofs.Region.Meaning
import GoLift.Proofs.Region.Reachable
import GoLift.Proofs.Region.Recode
import GoLift.Proofs.Region.Registry
import GoLift.Proofs.Region.Roles
import GoLift.Proofs.Region.Vetted
import GoLift.Proofs.Region.Walk
import GoLift.Proofs.Source.Agreement
import GoLift.Proofs.Source.Building
import GoLift.Proofs.Source.Bytes
import GoLift.Proofs.Source.Complete
import GoLift.Proofs.Source.Grammar
import GoLift.Proofs.Source.Jumps
import GoLift.Proofs.Source.Labels
import GoLift.Proofs.Source.Lines
import GoLift.Proofs.Source.Lists
import GoLift.Proofs.Source.Misfit
import GoLift.Proofs.Source.Numbering
import GoLift.Proofs.Source.Passes
import GoLift.Proofs.Source.Places
import GoLift.Proofs.Source.Quoted
import GoLift.Proofs.Source.Reads
import GoLift.Proofs.Source.Recognition
import GoLift.Proofs.Source.Samples
import GoLift.Proofs.Source.Types
import GoLift.Proofs.Text.Pattern
import GoLift.Region.Feed
import GoLift.Region.Primitive
import GoLift.Region.Reduce
import GoLift.Region.Registry
import GoLift.Source.Build
import GoLift.Source.Literal
import GoLift.Source.Normal
import GoLift.Source.Parser
import GoLift.Source.Reader
import GoLift.Source.Token
import GoLift.Source.Tree
import GoLift.Table
import GoLift.Text.Blank
import GoLift.Text.Digit
import GoLift.Text.Integer
import GoLift.Text.Lines
import GoLift.Text.Pattern
import GoLift.Text.Printable
import GoLift.Text.Quoted
import GoLift.Text.Runs
import GoLift.Text.Utf8
import GoLift.Text.WordChar
