import HackVm.Assembly.UnitCode
import HackVm.Bundle.Codec
import HackVm.CommandLine.Run
import HackVm.Machine.Loader
import HackVm.Machine.Run
import HackVm.Main
import HackVm.Proofs.Agreement
import HackVm.Proofs.Annotations
import HackVm.Proofs.Arguments
import HackVm.Proofs.AssemblyText
import HackVm.Proofs.BlockLines
import HackVm.Proofs.BlockOutcomes
import HackVm.Proofs.Blocks
import HackVm.Proofs.BlocksInText
import HackVm.Proofs.BoundedRuns
import HackVm.Proofs.CallBracket
import HackVm.Proofs.Comparisons
import HackVm.Proofs.Directories
import HackVm.Proofs.Execution
import HackVm.Proofs.Extensions
import HackVm.Proofs.FixedCells
import HackVm.Proofs.GeneratedLabels
import HackVm.Proofs.LabelScopes
import HackVm.Proofs.LineGrammar
import HackVm.Proofs.LineReading
import HackVm.Proofs.Linking
import HackVm.Proofs.Listings
import HackVm.Proofs.LoadedNumbers
import HackVm.Proofs.Loading
import HackVm.Proofs.NameClashes
import HackVm.Proofs.OutputGrammar
import HackVm.Proofs.OutputPaths
import HackVm.Proofs.Paths
import HackVm.Proofs.PrintedLines
import HackVm.Proofs.Relocation
import HackVm.Proofs.Renumbering
import HackVm.Proofs.Requests
import HackVm.Proofs.Routes
import HackVm.Proofs.RunErrors
import HackVm.Proofs.SelfDelimiting
import HackVm.Proofs.ShortestBytes
import HackVm.Proofs.Simulation
import HackVm.Proofs.SourceTree
import HackVm.Proofs.StackEffects
import HackVm.Proofs.StackMachine
import HackVm.Proofs.StrictReading
import HackVm.Proofs.Symbols
import HackVm.Proofs.TemplateEffects
import HackVm.Proofs.Texts
import HackVm.Proofs.UnitNames
import HackVm.Proofs.UnitReading
import HackVm.Session
import HackVm.SourceUnit.Listing
import HackVm.UnitName
