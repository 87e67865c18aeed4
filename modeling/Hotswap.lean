import Hotswap.Binary.Compressed
import Hotswap.Binary.Number
import Hotswap.Binary.Reader
import Hotswap.Class.Basic
import Hotswap.Class.Codec
import Hotswap.Class.Likeness
import Hotswap.Class.Verify
import Hotswap.Code.Body
import Hotswap.Code.Codec
import Hotswap.Code.Depth
import Hotswap.Code.Instruction
import Hotswap.Code.Listing
import Hotswap.Code.Opcode
import Hotswap.Code.Weave
import Hotswap.Decimal.Binary64
import Hotswap.Decimal.Shortest
import Hotswap.Error.Basic
import Hotswap.Error.Machine
import Hotswap.Error.Malformed
import Hotswap.Error.Unverifiable
import Hotswap.Machine.Basic
import Hotswap.Machine.CallStack
import Hotswap.Machine.Frame
import Hotswap.Machine.Load
import Hotswap.Machine.Redefine
import Hotswap.Machine.Run
import Hotswap.Machine.Value
import Hotswap.Patch.Basic
import Hotswap.Patch.Bridge
import Hotswap.Patch.Engine
import Hotswap.Patch.Resolve
import Hotswap.Patch.Script
import Hotswap.Pool.Basic
import Hotswap.Pool.Editable
import Hotswap.Pool.FileTree
import Hotswap.Pool.ImagePath
import Hotswap.Pool.Source
import Hotswap.Proofs.Answers
import Hotswap.Proofs.ClassImage
import Hotswap.Proofs.DepthWalk
import Hotswap.Proofs.Descriptors
import Hotswap.Proofs.Evolution
import Hotswap.Proofs.FrameSafety
import Hotswap.Proofs.InsertAfter
import Hotswap.Proofs.Invocations
import Hotswap.Proofs.Keeping
import Hotswap.Proofs.LittleEndian
import Hotswap.Proofs.Operations
import Hotswap.Proofs.Outcomes
import Hotswap.Proofs.Parallel
import Hotswap.Proofs.Reading
import Hotswap.Proofs.Results
import Hotswap.Proofs.Rollback
import Hotswap.Proofs.Scripts
import Hotswap.Proofs.Verification
import Hotswap.Proofs.VerifiedRuns
import Hotswap.Proofs.Weaving
import Hotswap.Session.Basic
import Hotswap.Session.Command
import Hotswap.Session.Description
import Hotswap.Session.Run
import Hotswap.Table
import Hotswap.Text.Blank
import Hotswap.Text.Hex
import Hotswap.Text.Quoted
import Hotswap.Text.Unprintable
import Hotswap.Text.Utf8
import Hotswap.Types.Basic
import Hotswap.Types.Descriptor
import Hotswap.Types.DescriptorScan
import Hotswap.Types.SourceName
import Hotswap.Proofs.DepthBound
import Hotswap.Proofs.WovenDepths
import Hotswap.Proofs.Finalized
import Hotswap.Proofs.Redefinition
import Hotswap.Proofs.Layouts
import Hotswap.Proofs.LiveState
import Hotswap.Proofs.LiveWorlds
import Hotswap.Proofs.Consumption
import Hotswap.Proofs.Strictness
import Hotswap.Proofs.ShortestImage
import Hotswap.Proofs.DescriptorTexts
import Hotswap.Proofs.ParallelRuns
import Hotswap.Proofs.InsertBefore
import Hotswap.Proofs.LimitsIgnored
import Hotswap.Proofs.LimitedRuns
import Hotswap.Proofs.FrozenTypes
import Hotswap.Proofs.PoolHistories
import Hotswap.Proofs.ScriptHistories
import Hotswap.Proofs.Registry
import Hotswap.Proofs.FrozenRecords
import Hotswap.Proofs.LoadedNames
import Hotswap.Proofs.Agreement
import Hotswap.Proofs.ReachedDepth
import Hotswap.Proofs.Namespaces
import Hotswap.Proofs.HierarchyDepth
import Hotswap.Proofs.NameResolution
import Hotswap.Proofs.Attaching
import Hotswap.Proofs.WeavingLaws
import Hotswap.Proofs.AtomicLoading
import Hotswap.Proofs.AtomicLookups
import Hotswap.Proofs.LocalEdits
import Hotswap.Proofs.MethodResolution
import Hotswap.Proofs.WovenBranches
import Hotswap.Proofs.SourceSpellings
import Hotswap.Proofs.NamedDescriptors
import Hotswap.Proofs.DirectorySources
import Hotswap.Proofs.CompressedForms
