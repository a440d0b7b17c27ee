import Fleet.Main
import Fleet.Retry
import Fleet.Proofs.Access.Operation
import Fleet.Proofs.Access.StaysReadable
import Fleet.Proofs.Lease.Exclusion
import Fleet.Proofs.Listing.Walk
import Fleet.Proofs.Registry.Claims
import Fleet.Proofs.Registry.Race
import Fleet.Proofs.Store.Rewriting
import Fleet.Proofs.Registry.Reaper
import Fleet.Proofs.Registry.Interruption
import Fleet.Proofs.Registry.Pass
import Fleet.Proofs.Lease.Orphans
import Fleet.Proofs.Settlement.Effect
import Fleet.Proofs.Settlement.Crash
import Fleet.Proofs.Settlement.Abandoned
import Fleet.Proofs.Settlement.Leasing
import Fleet.Proofs.Settlement.Poll
import Fleet.Proofs.Settlement.Drain
import Fleet.Proofs.Access.Belonging
import Fleet.Proofs.Visibility.Alike
import Fleet.Proofs.Visibility.Blind
import Fleet.Proofs.Visibility.Observation
import Fleet.Proofs.Access.Overwriting
import Fleet.Proofs.Job.Life
import Fleet.Proofs.Task.Life
import Fleet.Proofs.Access.Chronicle
import Fleet.Proofs.Job.Accounting
import Fleet.Proofs.Task.Stages
import Fleet.Proofs.Task.Accounting
import Fleet.Proofs.Task.Numbering
import Fleet.Proofs.Job.ConfigSpace
import Fleet.Proofs.Job.FanOut
import Fleet.Proofs.Derived.Akin
import Fleet.Proofs.Derived.Steady
import Fleet.Proofs.Derived.Tables
import Fleet.Proofs.Derived.Runs
import Fleet.Proofs.Json.Finite
import Fleet.Proofs.Store.RoundTrip
import Fleet.Proofs.Store.Tidying
import Fleet.Proofs.Registry.Timeout
import Fleet.Proofs.Job.Appending
import Fleet.Proofs.Settlement.Tidying
import Fleet.Proofs.Daemon.Turns
import Fleet.Proofs.Daemon.Tidying
import Fleet.Proofs.Daemon.Leaving
import Fleet.Proofs.Settlement.Commuting
import Fleet.Proofs.Settlement.Idempotence
import Fleet.Proofs.Lease.InOrder
import Fleet.Proofs.Registry.Alone
import Fleet.Proofs.Listing.Cursor
import Fleet.Proofs.Access.Updating
import Fleet.Proofs.Task.Drift
import Fleet.Proofs.Job.Rereading
import Fleet.Proofs.Listing.Chronology
import Fleet.Proofs.Duration.Retrying
import Fleet.Proofs.Duration.Spelling
import Fleet.Proofs.Listing.Order
import Fleet.Proofs.Naming.ObjectId
import Fleet.Proofs.Naming.TaskId
