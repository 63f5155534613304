import Bfcomp.Foundations.Words
import Bfcomp.Foundations.Runs
import Bfcomp.Foundations.Structured
import Bfcomp.Foundations.Realise
import Bfcomp.Foundations.SmallStep
import Bfcomp.Foundations.Behaviour
import Bfcomp.Foundations.Placement
import Bfcomp.Foundations.Overwrite
import Bfcomp.Foundations.Records
import Bfcomp.Foundations.Rounding
import Bfcomp.Foundations.CInt
import Bfcomp.Foundations.Digits
import Bfcomp.Foundations.Chains
import Bfcomp.Foundations.Buckets
import Bfcomp.Foundations.Ia32.Encoding
import Bfcomp.Foundations.Ia32.Machine
import Bfcomp.Frontend.IrGen
import Bfcomp.Frontend.Brackets
import Bfcomp.Frontend.Shape
import Bfcomp.Frontend.Balance
import Bfcomp.Frontend.Cut
import Bfcomp.Frontend.Reading
import Bfcomp.Frontend.Cost
import Bfcomp.Frontend.Dump
import Bfcomp.Frontend.Listing
import Bfcomp.Interpret.Store
import Bfcomp.Interpret.Machine
import Bfcomp.Interpret.Control
import Bfcomp.Interpret.Pointer
import Bfcomp.Interpret.Meaning
import Bfcomp.Interpret.Dump
import Bfcomp.Compile.Emit
import Bfcomp.Compile.Code
import Bfcomp.Compile.Execute
import Bfcomp.Compile.Layout
import Bfcomp.Compile.Errors
import Bfcomp.Compile.Size
import Bfcomp.Compile.Bound
import Bfcomp.Compile.Agree
import Bfcomp.Compile.Correct
import Bfcomp.Rxi.Map
import Bfcomp.Rxi.Linked
import Bfcomp.Rxi.Resize
import Bfcomp.Rxi.Valid
import Bfcomp.Rxi.Calls
import Bfcomp.Rxi.Iterate
import Bfcomp.Elf.Format
import Bfcomp.Rxi.Order
import Bfcomp.Rxi.Vec
import Bfcomp.Rxi.Elements
import Bfcomp.Rxi.Sequences
import Bfcomp.Rxi.Limits
import Bfcomp.Rxi.Bytes
import Bfcomp.Frontend.Memory
import Bfcomp.Elf.Gen
import Bfcomp.Elf.Registered
import Bfcomp.Elf.Layout
import Bfcomp.Elf.Names
import Bfcomp.Elf.Image
import Bfcomp.Elf.Align
import Bfcomp.Elf.Reader
import Bfcomp.Elf.Loader
import Bfcomp.Driver.Main
import Bfcomp.Driver.Options
import Bfcomp.Driver.Output
import Bfcomp.Driver.Executable
import Bfcomp.Driver.Size
import Bfcomp.Ocaml.Ir
import Bfcomp.Ocaml.Interpreter
import Bfcomp.Ocaml.Passes
import Bfcomp.Ocaml.Behaviour
import Bfcomp.Ocaml.Points
import Bfcomp.Ocaml.Coalesce
import Bfcomp.Ocaml.Parser
import Bfcomp.Ocaml.Print
import Bfcomp.Ocaml.Pipeline
import Bfcomp.Ocaml.Contraction
import Bfcomp.Ocaml.ZeroLoop
import Bfcomp.Ocaml.Normal
import Bfcomp.Ocaml.Scan
import Bfcomp.Ocaml.Agree
import Bfcomp.Ocaml.Reparse
import Bfcomp.Ocaml.Bytes
import Bfcomp.Ocaml.Bytebuffer
import Bfcomp.Ocaml.Codegen
import Bfcomp.Ocaml.Bytetype
import Bfcomp.Ocaml.Streams
import Bfcomp.Ocaml.Align
import Bfcomp.Ocaml.Main
import Bfcomp.Driver.Commands
import Bfcomp.Driver.Agreement
import Bfcomp.Driver.Memory
