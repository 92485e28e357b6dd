import BefExecutor.Kernel
import BefExecutor.State
import BefExecutor.Executor
import BefExecutor.System
import BefExecutor.Gate
import BefExecutor.Weight
import BefExecutor.Lifetime
import BefExecutor.Termination
import BefExecutor.Frame
import BefExecutor.Cursor
import BefExecutor.Registers
import BefExecutor.WellFormed
import BefExecutor.Tokens
import BefExecutor.Readiness
import BefExecutor.Occupancy
import BefExecutor.Placeholders
import BefExecutor.Publish
import BefExecutor.Asserts
import BefExecutor.Handler
import BefExecutor.Availability
import BefExecutor.Arrival
import BefExecutor.Firing
import BefExecutor.Uses
