import WhileLang.Log.Journal
import WhileLang.Pipeline.Passes
import WhileLang.Program.Describe
import WhileLang.Program.Source
import WhileLang.Proofs.Simulation
import WhileLang.Proofs.StackDepth
import WhileLang.Proofs.FramePointer
import WhileLang.Proofs.Denotation
import WhileLang.Proofs.RuleSoundness
import WhileLang.Proofs.GraphModel
import WhileLang.Proofs.IterationModel
import WhileLang.Proofs.GraphSoundness
import WhileLang.Proofs.Bench
import WhileLang.Proofs.StraightLine
import WhileLang.Proofs.Linearization
import WhileLang.Proofs.SymbolicExecution
import WhileLang.Proofs.Optimization
import WhileLang.Proofs.RoundTrip
import WhileLang.Proofs.PipelineRuns
import WhileLang.Proofs.ReadingOff
import WhileLang.Proofs.Reoptimization
import WhileLang.Proofs.MaximalSharing
import WhileLang.Proofs.IterationLimit
import WhileLang.Proofs.StepLimit
import WhileLang.Proofs.EffectChain
import WhileLang.Proofs.EvaluatedOnce
import WhileLang.Proofs.OpaqueSymbols
import WhileLang.Proofs.ChainRewriting
import WhileLang.Proofs.Relocation
import WhileLang.Proofs.SymbolicRefusal
import WhileLang.Proofs.BalancedFrames
import WhileLang.Proofs.FailedSteps
import WhileLang.Proofs.WordRange
import WhileLang.Proofs.ExpressionText
import WhileLang.Proofs.SlotNumbering
import WhileLang.Proofs.UniqueReading
import WhileLang.Proofs.OnePass
import WhileLang.Proofs.Renaming
import WhileLang.Proofs.BenchAccount
import WhileLang.Proofs.PassSchedule
import WhileLang.Proofs.ExactValues
import WhileLang.Proofs.SaturationLoop
import WhileLang.Proofs.EngineLaws
