import CallByNeed.Main
import CallByNeed.Session.Operation
import CallByNeed.Proofs.Runs.Equations
import CallByNeed.Proofs.Runs.Laws
import CallByNeed.Proofs.Worlds.Growth
import CallByNeed.Proofs.Worlds.History
import CallByNeed.Proofs.Limits.Cuts
import CallByNeed.Proofs.Limits.Evaluations
import CallByNeed.Proofs.Renumbering.Basic
import CallByNeed.Proofs.Renumbering.Lookup
import CallByNeed.Proofs.CallByName.Basic
import CallByNeed.Proofs.CallByName.Renumbering
import CallByNeed.Proofs.Worlds.Consistency
import CallByNeed.Proofs.Worlds.Reach
import CallByNeed.Proofs.Runs.Traits
import CallByNeed.Proofs.Worlds.Operations
import CallByNeed.Proofs.Records.Sound
import CallByNeed.Proofs.Records.Meets
import CallByNeed.Proofs.Records.Reducer
import CallByNeed.Proofs.Records.Evaluations
import CallByNeed.Proofs.CallByName.PlainNatives
import CallByNeed.Proofs.Records.Invariant
import CallByNeed.Proofs.Refinement.Ends
import CallByNeed.Proofs.Refinement.Evaluations
import CallByNeed.Proofs.History.Follows
import CallByNeed.Proofs.History.Reducer
import CallByNeed.Proofs.History.Loops
import CallByNeed.Proofs.History.Evaluations
import CallByNeed.Proofs.Frames.Orderly
import CallByNeed.Proofs.Frames.Runs
import CallByNeed.Proofs.Frames.Honest
import CallByNeed.Proofs.Frames.Store
import CallByNeed.Proofs.Need.Recorded
import CallByNeed.Proofs.Likeness.Basic
import CallByNeed.Proofs.Likeness.Forms
import CallByNeed.Proofs.Likeness.Runs
import CallByNeed.Proofs.Likeness.Loops
import CallByNeed.Proofs.Laziness.Holes
import CallByNeed.Proofs.Laziness.Natives
import CallByNeed.Proofs.Lexical.Opaque
import CallByNeed.Proofs.Lexical.Calls
import CallByNeed.Proofs.Need.Activities
import CallByNeed.Proofs.Need.Order
import CallByNeed.Proofs.Need.Sessions
import CallByNeed.Proofs.Moves.Basic
import CallByNeed.Proofs.Moves.Adequacy
import CallByNeed.Proofs.Moves.Next
import CallByNeed.Proofs.Moves.Budgets
import CallByNeed.Proofs.Moves.Arguments
import CallByNeed.Proofs.Deferral.Settled
import CallByNeed.Proofs.Deferral.Simulation
import CallByNeed.Proofs.Deferral.Apply
import CallByNeed.Proofs.Reuse.Ready
import CallByNeed.Proofs.Reuse.Runs
import CallByNeed.Proofs.Reuse.Programs
import CallByNeed.Proofs.Names.Registered
import CallByNeed.Proofs.Appliers.Silent
import CallByNeed.Proofs.Appliers.Enclosed
import CallByNeed.Proofs.Appliers.Failures
import CallByNeed.Proofs.Blocks.Twins
import CallByNeed.Proofs.Blocks.Lockstep
import CallByNeed.Proofs.Blocks.Calls
import CallByNeed.Proofs.Cycles.Asked
import CallByNeed.Proofs.Cycles.Courses
import CallByNeed.Proofs.Cycles.Unfinished
import CallByNeed.Proofs.Runs.Rounds
import CallByNeed.Proofs.Worlds.Additions
import CallByNeed.Proofs.Dispatch.Applications
import CallByNeed.Proofs.Names.Positions
import CallByNeed.Proofs.Names.LastWins
import CallByNeed.Proofs.Appliers.Unlogged
import CallByNeed.Proofs.Names.Closings
import CallByNeed.Proofs.Need.Origins
import CallByNeed.Proofs.Need.Explained
import CallByNeed.Proofs.Need.FirstSettled
import CallByNeed.Proofs.Results.NormalForms
import CallByNeed.Proofs.Costs.Basic
import CallByNeed.Proofs.Costs.Chains
import CallByNeed.Proofs.Names.Digits
import CallByNeed.Proofs.Names.Plain
import CallByNeed.Proofs.Names.Nearest
import CallByNeed.Proofs.Names.Indices
import CallByNeed.Proofs.Names.Shapes
import CallByNeed.Proofs.Printing.Atoms
import CallByNeed.Proofs.Printing.SourceTrees
import CallByNeed.Proofs.Costs.TailCalls
import CallByNeed.Proofs.Costs.Doubling
import CallByNeed.Proofs.Log.Moves
import CallByNeed.Proofs.Log.Texts
import CallByNeed.Proofs.Log.Faithful
