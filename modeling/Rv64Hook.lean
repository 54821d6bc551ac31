import Rv64Hook.Lib.ByteMem
import Rv64Hook.Lib.Run
import Rv64Hook.Lib.Rv64
import Rv64Hook.Berberis.Immediate
import Rv64Hook.Berberis.Assembler
import Rv64Hook.Berberis.Decoder
import Rv64Hook.Lib.Bitmap
import Rv64Hook.Memory
import Rv64Hook.Relocator
import Rv64Hook.Relocator.Layout
import Rv64Hook.Relocator.Emission
import Rv64Hook.Relocator.Execution
import Rv64Hook.Relocator.Simulation
import Rv64Hook.Relocator.Correctness
import Rv64Hook.Relocator.Internal
import Rv64Hook.FirstTrampoline
import Rv64Hook.Lib.LinkedList
import Rv64Hook.Lib.Calls
import Rv64Hook.Hooks
import Rv64Hook.Hooks.Loops
import Rv64Hook.Hooks.Chain
import Rv64Hook.Hooks.Dispatch
import Rv64Hook.Hooks.Links
import Rv64Hook.Hooks.Effects
import Rv64Hook.Hooks.Api
import Rv64Hook.Hooks.Registry
import Rv64Hook.Hooks.Bytes
import Rv64Hook.Hooks.Cache
import Rv64Hook.Hooks.Failure
import Rv64Hook.Hooks.Records
import Rv64Hook.Memory.Chunks
import Rv64Hook.Memory.Scopes
import Rv64Hook.Memory.Lists
import Rv64Hook.Memory.Heaps
import Rv64Hook.Memory.Runs
import Rv64Hook.Memory.Usable
import Rv64Hook.Memory.Realloc
import Rv64Hook.Hooks.Removal
import Rv64Hook.Relocator.Pool
import Rv64Hook.Relocator.Validity
import Rv64Hook.Memory.Gaps
import Rv64Hook.Memory.Reach
import Rv64Hook.Memory.FirstFit
import Rv64Hook.Hooks.Window
import Rv64Hook.Hooks.Refusal
import Rv64Hook.Logger
import Rv64Hook.Relocator.Errors
import Rv64Hook.Hooks.Errors
import Rv64Hook.Memory.OutOfMemory
import Rv64Hook.Lib.Lp64d
import Rv64Hook.RegisterContext
import Rv64Hook.Args
import Rv64Hook.Lib.BlockCopy
import Rv64Hook.Memory.Copy
import Rv64Hook.Lib.Asm
import Rv64Hook.SecondTrampoline
import Rv64Hook.SecondTrampoline.Frame
import Rv64Hook.SecondTrampoline.Handlers
import Rv64Hook.SecondTrampoline.Invocation
import Rv64Hook.SecondTrampoline.PostHandlers
import Rv64Hook.SecondTrampoline.Runs
import Rv64Hook.Hooks.Switches
import Rv64Hook.SecondTrampoline.Refinement
import Rv64Hook.SecondTrampoline.Moments
import Rv64Hook.Lib.BlockStore
import Rv64Hook.Memory.Frames
import Rv64Hook.Memory.Clients
import Rv64Hook.Relocator.Locality
import Rv64Hook.Hooks.InForce
