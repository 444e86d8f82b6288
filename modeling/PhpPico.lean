import PhpPico.Pbc.RoundTrip
import PhpPico.State.Nested
import PhpPico.Vm.Heights
import PhpPico.Vm.Loaded
import PhpPico.Lib.ByteMemory
import PhpPico.Lib.Chain
import PhpPico.Lib.OrderedMap
import PhpPico.Parray.Chains
import PhpPico.Parray.Refine
import PhpPico.Parray.Runs
import PhpPico.Pool.Alloc
import PhpPico.Pool.Blocks
import PhpPico.Pool.Client
import PhpPico.Gc.Safety
import PhpPico.Gc.Once
import PhpPico.Exit.Final
import PhpPico.Json.RoundTrip
import PhpPico.State.Symbols
import PhpPico.Vm.Errors
import PhpPico.Vm.Bounds
import PhpPico.Lib.KeyedStore
import PhpPico.State.Statics
import PhpPico.State.Locals
import PhpPico.State.Rollback
import PhpPico.State.Temporaries
import PhpPico.Vm.Messages
import PhpPico.Class.Private
import PhpPico.Compiler.Ast
import PhpPico.Gc.Measure
import PhpPico.Lib.Offspring
import PhpPico.Gc.Clearing
import PhpPico.Gc.Returns
import PhpPico.Vm.Isolation
import PhpPico.Vm.AccessForms
import PhpPico.Lib.RingBuffer
import PhpPico.Pgems.Delivery
import PhpPico.Class.Atomic
import PhpPico.Parray.Slots
import PhpPico.Fs.Once
import PhpPico.Fs.Identity
import PhpPico.Lib.Ieee
import PhpPico.Value.Compare
import PhpPico.Value.Floatless
import PhpPico.Call.Binding
import PhpPico.Closure.Capturing
import PhpPico.Parray.Canonical
import PhpPico.Parray.Pushes
import PhpPico.Parray.Removal
import PhpPico.Pool.Fit
import PhpPico.Lib.Scanning
import PhpPico.Value.NumericPrefix
import PhpPico.Lib.FirstDifference
import PhpPico.Value.Loose
import PhpPico.Value.LooseLaws
import PhpPico.Gc.Account
import PhpPico.Gc.Complete
import PhpPico.Class.Signatures
import PhpPico.Lib.CopyOnWrite
import PhpPico.Sharing.Readonly
import PhpPico.Lib.Rounding
import PhpPico.Lib.Limbs
import PhpPico.Lib.Expansion
import PhpPico.Pbc.Narrow
import PhpPico.Value.Digits
import PhpPico.Value.DecimalText
import PhpPico.Value.IntegerText
import PhpPico.Lib.InsertionSort
import PhpPico.Arrays.Sizes
import PhpPico.Arrays.Walk
import PhpPico.Arrays.Building
import PhpPico.Arrays.Slice
import PhpPico.Arrays.Mutators
import PhpPico.Arrays.Sort
import PhpPico.Lib.SignedArithmetic
import PhpPico.Lib.FloatArithmetic
import PhpPico.Value.Checked
import PhpPico.Value.Arithmetic
import PhpPico.Lib.Occurrences
import PhpPico.Strings.Search
import PhpPico.Arrays.Packed
import PhpPico.Strings.Substr
import PhpPico.Value.Operators
import PhpPico.Compiler.Literals
import PhpPico.Arrays.Totals
import PhpPico.Compiler.Escapes
import PhpPico.Value.Conversion
import PhpPico.Class.Marking
import PhpPico.Class.UserClasses
import PhpPico.Lib.Reaching
import PhpPico.Class.Reachability
import PhpPico.Lib.CallbackFold
import PhpPico.Sharing.Invoke
import PhpPico.Sharing.Iterate
import PhpPico.Sharing.Callbacks
import PhpPico.Sharing.Callers
import PhpPico.Lib.Xorshift
import PhpPico.Random.Draws
import PhpPico.Random.Coverage
import PhpPico.Random.Period
import PhpPico.Fs.Lines
import PhpPico.Hal.Pwm
import PhpPico.Shell.Paths
import PhpPico.Compiler.Jumps
import PhpPico.Tools.Disasm
