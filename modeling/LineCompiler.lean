import LineCompiler.Action
import LineCompiler.CommandLine.Options
import LineCompiler.CommandLine.Reply
import LineCompiler.Compilation
import LineCompiler.Config
import LineCompiler.Emitter
import LineCompiler.Event
import LineCompiler.Expr
import LineCompiler.Fault
import LineCompiler.Instruction
import LineCompiler.Main
import LineCompiler.Operator
import LineCompiler.Proofs.BrokenSink
import LineCompiler.Proofs.Causes
import LineCompiler.Proofs.Command
import LineCompiler.Proofs.Comparison
import LineCompiler.Proofs.Composition
import LineCompiler.Proofs.CompoundAssignment
import LineCompiler.Proofs.Correctness
import LineCompiler.Proofs.Course
import LineCompiler.Proofs.Divisors
import LineCompiler.Proofs.EarliestFault
import LineCompiler.Proofs.Effects
import LineCompiler.Proofs.FaultPositions
import LineCompiler.Proofs.Grammar
import LineCompiler.Proofs.Jobs
import LineCompiler.Proofs.LastLine
import LineCompiler.Proofs.Lexemes
import LineCompiler.Proofs.Lines
import LineCompiler.Proofs.Literals
import LineCompiler.Proofs.Lookahead
import LineCompiler.Proofs.Machine
import LineCompiler.Proofs.Names
import LineCompiler.Proofs.Output
import LineCompiler.Proofs.Places
import LineCompiler.Proofs.PrefixForm
import LineCompiler.Proofs.Printer
import LineCompiler.Proofs.ProgramText
import LineCompiler.Proofs.Recognition
import LineCompiler.Proofs.RegisterNeed
import LineCompiler.Proofs.RegisterStack
import LineCompiler.Proofs.Relaxation
import LineCompiler.Proofs.Renaming
import LineCompiler.Proofs.Rendering
import LineCompiler.Proofs.Repetition
import LineCompiler.Proofs.RunLog
import LineCompiler.Proofs.Runs
import LineCompiler.Proofs.Sessions
import LineCompiler.Proofs.Simulation
import LineCompiler.Proofs.SourceText
import LineCompiler.Proofs.TableHistory
import LineCompiler.Proofs.Values
import LineCompiler.Proofs.Variables
import LineCompiler.Proofs.Walks
import LineCompiler.Proofs.WordSize
import LineCompiler.Proofs.Words
import LineCompiler.Proofs.Wrapping
import LineCompiler.Sink
import LineCompiler.Statement
import LineCompiler.Table
import LineCompiler.Text.WhiteSpace
import LineCompiler.Token
import LineCompiler.Token.Lexer
