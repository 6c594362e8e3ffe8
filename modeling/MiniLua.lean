import MiniLua.FileSystem.FileTree
import MiniLua.Main
import MiniLua.Memory.Arena
import MiniLua.Memory.Sorted
import MiniLua.Proofs.Calls.Reach
import MiniLua.Proofs.Machine.Quiet
import MiniLua.Proofs.Calls.Builtins
import MiniLua.Proofs.Calls.Transparent
import MiniLua.Proofs.Chunk.Reading
import MiniLua.Proofs.Chunk.RoundTrip
import MiniLua.Proofs.Chunk.Copies
import MiniLua.Proofs.Syntax.Nesting
import MiniLua.Proofs.Syntax.Depth
import MiniLua.Proofs.Code.Emits
import MiniLua.Proofs.Code.Layout
import MiniLua.Proofs.Code.Tidy
import MiniLua.Proofs.Code.Laying
import MiniLua.Proofs.Code.Jumps
import MiniLua.Proofs.Code.Laid
import MiniLua.Proofs.Code.Encodable
import MiniLua.Proofs.Code.Compiled
import MiniLua.Proofs.Chunk.Loadable
import MiniLua.Proofs.Stack.Flow
import MiniLua.Proofs.Stack.Passes
import MiniLua.Proofs.Memory.Stores
import MiniLua.Proofs.Syntax.Accounts
import MiniLua.Proofs.Syntax.Printed
import MiniLua.Proofs.Twins.Builtins
import MiniLua.Proofs.Twins.Instructions
import MiniLua.Proofs.Twins.Compiling
import MiniLua.Proofs.Twins.Decoding
import MiniLua.Proofs.Twins.Loaders
import MiniLua.Proofs.Twins.Natives
import MiniLua.Proofs.Twins.Scripts
import MiniLua.Proofs.Machine.Performed
import MiniLua.Proofs.Machine.Sober
import MiniLua.Proofs.Machine.Trees
import MiniLua.Proofs.Stack.Blind
import MiniLua.Proofs.Stack.Chain
import MiniLua.Proofs.Stack.Discipline
import MiniLua.Proofs.Stack.Runs
import MiniLua.Proofs.Memory.Entries
import MiniLua.Proofs.Syntax.Accepts
import MiniLua.Proofs.Syntax.Bare
import MiniLua.Proofs.Code.InRange
import MiniLua.Proofs.Syntax.Tracks
import MiniLua.Proofs.Text.Scans
import MiniLua.Proofs.Code.FrontEnd
import MiniLua.Proofs.Memory.Equality
import MiniLua.Proofs.Memory.Interning
import MiniLua.Proofs.Checked.Runs
import MiniLua.Proofs.Names.Carried
import MiniLua.Proofs.Memory.Comparison
import MiniLua.Proofs.Calls.Limits
import MiniLua.Proofs.Calls.Places
import MiniLua.Proofs.Meaning.Programs
import MiniLua.Proofs.Meaning.Simultaneous
import MiniLua.Proofs.Chunk.Truncated
import MiniLua.Proofs.Chunk.Rewritten
import MiniLua.Proofs.Text.Splits
import MiniLua.Proofs.Text.Spaced
import MiniLua.Proofs.Instances.Known
import MiniLua.Proofs.Instances.Relays
import MiniLua.Proofs.Instances.Texts
import MiniLua.Proofs.Instances.Turns
import MiniLua.Proofs.Calls.Sessions
import MiniLua.Proofs.Checked.Exact
import MiniLua.Proofs.Memory.Extremes
import MiniLua.Proofs.Code.Plan
import MiniLua.Proofs.Code.Planned
import MiniLua.Proofs.Instances.Account
import MiniLua.Proofs.Instances.Alias
import MiniLua.Proofs.Loops.Rounds
import MiniLua.Proofs.Number.Literals
import MiniLua.Proofs.Calls.Outside
import MiniLua.Proofs.Number.Digits
import MiniLua.Proofs.Number.Reread
import MiniLua.Proofs.Calls.Windows
import MiniLua.Proofs.Text.Parts
import MiniLua.Proofs.Calls.Selected
import MiniLua.Proofs.Calls.Unpacked
import MiniLua.Proofs.Calls.Environments
import MiniLua.Proofs.Calls.Readers
