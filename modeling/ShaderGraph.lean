import ShaderGraph.CommandLine.Memory
import ShaderGraph.Graph.Json
import ShaderGraph.Main
import ShaderGraph.ProgramCache
import ShaderGraph.Proofs.CapturingBuild
import ShaderGraph.Proofs.CyclesBuild
import ShaderGraph.Proofs.CallsOnce
import ShaderGraph.Proofs.Choices
import ShaderGraph.Proofs.WrittenBuild
import ShaderGraph.Proofs.LexicalTypes
import ShaderGraph.Proofs.Reading
import ShaderGraph.Proofs.ReadingCode
import ShaderGraph.Proofs.ReadingBuild
import ShaderGraph.Proofs.Inputs
import ShaderGraph.Proofs.Numbering
import ShaderGraph.Proofs.NumberingBuild
import ShaderGraph.Proofs.Remainders
import ShaderGraph.Proofs.TwinArtifact
import ShaderGraph.Proofs.Sessions
import ShaderGraph.Proofs.UniformBlocks
import ShaderGraph.Proofs.MachineBuild
import ShaderGraph.Proofs.WgslText
import ShaderGraph.Proofs.Reordering
import ShaderGraph.Proofs.Scheduling
import ShaderGraph.Proofs.SpelledBuild
import ShaderGraph.Proofs.CompoundAssignment
import ShaderGraph.Proofs.LoopProgress
import ShaderGraph.Proofs.OperandCode
import ShaderGraph.Proofs.ProgressCode
import ShaderGraph.Proofs.Packing
import ShaderGraph.Proofs.LinkingBuild
import ShaderGraph.Proofs.TypeNames
import ShaderGraph.Proofs.FunctionParts
import ShaderGraph.Proofs.DeclaredTypes
import ShaderGraph.Proofs.Asked
import ShaderGraph.Proofs.AskedBuild
import ShaderGraph.Proofs.Askers
import ShaderGraph.Proofs.Allocation
import ShaderGraph.Proofs.ContextHistories
import ShaderGraph.Proofs.Traces
import ShaderGraph.Proofs.TracesBuild
import ShaderGraph.Proofs.Versions
import ShaderGraph.Proofs.SharedValues
import ShaderGraph.Proofs.AccessesBuild
import ShaderGraph.Proofs.CacheHistories
import ShaderGraph.Proofs.BlankedFunctions
import ShaderGraph.Proofs.UsageCounts
