import Mlvm.FirstOrder.Term
import Mlvm.FirstOrder.Graph
import Mlvm.Opcode.Word
import Mlvm.Engine.State
import Mlvm.Engine.Unify
import Mlvm.FirstOrder.GraphUnification
import Mlvm.Engine.Store
import Mlvm.Engine.UnifySimulation
import Mlvm.Engine.GetvalUnification
import Mlvm.Engine.Step
import Mlvm.Engine.Unifiability
import Mlvm.Engine.Ops
import Mlvm.Engine.LabelInv
import Mlvm.Engine.Validity
import Mlvm.Engine.Frames
import Mlvm.Engine.FrameOps
import Mlvm.Engine.Backtracking
import Mlvm.Engine.Activation
import Mlvm.Engine.Standing
import Mlvm.Engine.FreeSteps
import Mlvm.Engine.CutLocal
import Mlvm.Transport.Pdu
import Mlvm.Transport.Rendezvous
import Mlvm.Transport.NoDuplicate
import Mlvm.Transport.Intact
import Mlvm.Transport.NoLoss
import Mlvm.Probing.Linear
import Mlvm.Relocation.Scan
import Mlvm.Memory.Block
import Mlvm.Memory.Clone
import Mlvm.Memory.Expansion
import Mlvm.Memory.Migration
import Mlvm.Opcode.Layout
import Mlvm.Assembler.Assembler
import Mlvm.Assembler.Load
import Mlvm.Assembler.Keeps
import Mlvm.Assembler.HashTable
import Mlvm.Assembler.HashDispatch
import Mlvm.Engine.CompareRun
import Mlvm.Engine.StandardOrder
import Mlvm.Framing.Splitter
import Mlvm.Transport.FrameList
import Mlvm.Frames.Operations
import Mlvm.Frames.Exhaustion
import Mlvm.Transport.Reassembly
import Mlvm.Transport.BackupName
import Mlvm.Transport.KeyExchange
import Mlvm.Transport.BackupCache
import Mlvm.Transport.BackupMap
import Mlvm.Imagoc.Names
import Mlvm.Imagoc.ClauseTable
import Mlvm.Imagoc.Consult
import Mlvm.Imagoc.CompiledOnce
import Mlvm.Ownership.Ledger
import Mlvm.Stack.Handlers
import Mlvm.Stack.Settles
import Mlvm.Stack.Conserves
import Mlvm.Stack.InOrder
import Mlvm.TwosComplement.Bitwise
import Mlvm.Engine.Arithmetic
import Mlvm.Refinement.Data
import Mlvm.Frames.Bytes
import Mlvm.Frames.Rows
import Mlvm.Routing.Layer
import Mlvm.Routing.Delivery
import Mlvm.Streaming.Transform
import Mlvm.Security.Layer
import Mlvm.Security.Crypto
import Mlvm.Security.Transparency
import Mlvm.Security.Gate
import Mlvm.Creator.NameTable
import Mlvm.Creator.StackMove
import Mlvm.StringTable.Packed
import Mlvm.Creator.Interning
import Mlvm.Fuel.Comes
import Mlvm.LevelOrder.Queue
import Mlvm.FirstOrder.Variant
import Mlvm.Creator.CopyArg
import Mlvm.Creator.Source
import Mlvm.Creator.LevelWalk
import Mlvm.Creator.Marks
import Mlvm.Creator.ScanStep
import Mlvm.Creator.ScanName
import Mlvm.Creator.CopySpace
import Mlvm.Creator.ArgSize
import Mlvm.Creator.CopyInside
import Mlvm.Creator.CopyRun
import Mlvm.Creator.CopyVariant
import Mlvm.Creator.Cyclic
import Mlvm.Creator.Loader
import Mlvm.Creator.Dispatch
import Mlvm.Probing.Round
import Mlvm.Connections.Table
import Mlvm.Transport.KnownHosts
import Mlvm.Transport.KnownHostsLookup
import Mlvm.System.WorkerLog
import Mlvm.System.WorkerLogInv
import Mlvm.Builtins.AtomConcat
import Mlvm.Builtins.Concatenation
import Mlvm.Imagoc.MathCode
import Mlvm.Imagoc.Temporaries
import Mlvm.Builtins.Functor
import Mlvm.Builtins.TermStructure
import Mlvm.Timer.Table
import Mlvm.Timer.Alarms
import Mlvm.System.Sleep
import Mlvm.System.Wakeup
import Mlvm.Transport.Sending
import Mlvm.Transport.SendingLocks
import Mlvm.Transport.SendingBytes
import Mlvm.Transport.SentWhole
import Mlvm.Extraction.Words
import Mlvm.Assembler.Reader
import Mlvm.Imagoc.Listing
import Mlvm.Imagoc.Scanner
import Mlvm.Imagoc.Operands
import Mlvm.Imagoc.ReadBack
import Mlvm.Imagoc.NamesSurvive
import Mlvm.Descent.Grants
import Mlvm.Imagoc.TermTree
import Mlvm.Imagoc.TermParser
import Mlvm.Imagoc.OperatorGrammar
import Mlvm.Imagoc.ReadsWritten
import Mlvm.Imagoc.SpelledText
import Mlvm.Imagoc.ReadsAll
import Mlvm.Imagoc.WrittenTerms
import Mlvm.Imagoc.CellsFit
import Mlvm.FirstOrder.GraphCopy
import Mlvm.Memory.Collection
import Mlvm.Memory.Emission
import Mlvm.Memory.Forwarding
import Mlvm.Memory.Shunting
import Mlvm.Memory.Rounds
import Mlvm.Memory.Gathering
import Mlvm.Memory.Collected
import Mlvm.Memory.SameTerms
import Mlvm.Memory.Collects
