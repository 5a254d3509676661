import Ijvm.Arrays.History
import Ijvm.Collector.Guarantees
import Ijvm.Stack.Underflow
import Ijvm.Stack.Calls
import Ijvm.Debugger.Mirror
import Ijvm.Debugger.Observer
import Ijvm.Debugger.Restart
import Ijvm.Code.Registers
import Ijvm.Loader.Format
import Ijvm.Symbols.RoundTrip
import Ijvm.Network.Link
import Ijvm.Sessions.Counter
import Ijvm.Stack.MainReturn
import Ijvm.Debugger.Releases
import Ijvm.Stack.Layout
import Ijvm.Stack.Increment
import Ijvm.Code.Branches
import Ijvm.Scan.Turns
import Ijvm.Scan.Text
import Ijvm.Scan.Main
import Ijvm.Code.Sequence
import Ijvm.Scan.Agreement
import Ijvm.Scan.Harmless
import Ijvm.Collector.Twice
import Ijvm.Stack.Growth
import Ijvm.Stack.Collections
import Ijvm.Machine.Power
import Ijvm.Stack.Ladder
import Ijvm.Network.Steps
import Ijvm.Arrays.PartialMap
import Ijvm.Arrays.Capacity
import Ijvm.Code.Prefix
import Ijvm.Code.Constants
import Ijvm.Transcript.DoWhile
import Ijvm.Network.Failures
import Ijvm.Debugger.Containing
import Ijvm.Debugger.Labels
import Ijvm.Debugger.CallStack
import Ijvm.Stack.Overflow
import Ijvm.Stack.AsList
import Ijvm.Machine.Reasons
import Ijvm.Machine.Streams
import Ijvm.Transcript.Refinement
import Ijvm.Frames.Runs
import Ijvm.Frames.Typing
import Ijvm.Frames.Context
import Ijvm.Frames.Determined
import Ijvm.Frames.Roots
import Ijvm.Sessions.Starting
import Ijvm.Arrays.Retaining
import Ijvm.Arrays.Runs
import Ijvm.Debugger.Info
import Ijvm.Frames.Display
import Ijvm.Transcript.Partial
import Ijvm.Debugger.Phases
import Ijvm.Network.Usage
import Ijvm.Tokens.Words
import Ijvm.Debugger.Decoder
import Ijvm.Debugger.Prompt
import Ijvm.Sessions.Process
import Ijvm.Frames.Costs
import Ijvm.Sessions.Marks
import Ijvm.Debugger.Names
import Ijvm.Debugger.Continue
