import Chronicle.Panic
import Chronicle.Index
import Chronicle.Duration
import Chronicle.Decimal
import Chronicle.Decimal.Shortest
import Chronicle.Duration.Text
import Chronicle.Fault
import Chronicle.Settings
import Chronicle.Json
import Chronicle.Json.Token
import Chronicle.Json.Reading
import Chronicle.Settings.Json
import Chronicle.Sample
import Chronicle.Sample.Text
import Chronicle.Clock
import Chronicle.Flag
import Chronicle.Event
import Chronicle.Ring
import Chronicle.Ring.Text
import Chronicle.Request
import Chronicle.Ring.Answer
import Chronicle.Waiter
import Chronicle.Thread
import Chronicle.System
import Chronicle.System.Lemmas
import Chronicle.Opening
import Chronicle.Plan
import Chronicle.Session
import Chronicle.Proofs.Ring.Window
import Chronicle.Proofs.Ring.Verdict
import Chronicle.Proofs.System.Step
import Chronicle.Proofs.System.Run
import Chronicle.Proofs.System.Lock
import Chronicle.Proofs.System.Coherence
import Chronicle.Proofs.System.Wait
import Chronicle.Proofs.System.Admissions
import Chronicle.Proofs.System.Told
import Chronicle.Proofs.System.Ask
import Chronicle.Proofs.System.Call
import Chronicle.Proofs.System.Alone
import Chronicle.Proofs.System.Attend
import Chronicle.Proofs.Reads
import Chronicle.Proofs.Wakeups
import Chronicle.Proofs.Blocked
import Chronicle.Proofs.Outcomes
import Chronicle.Proofs.Lifetime
import Chronicle.Proofs.CatchUp
import Chronicle.Proofs.Appends
import Chronicle.Proofs.Slices
import Chronicle.Proofs.Ring.Bounds
import Chronicle.Proofs.Panics
import Chronicle.Proofs.Shutdown
import Chronicle.Proofs.System.Readings
import Chronicle.Proofs.Stamps
import Chronicle.Proofs.System.Sleep
import Chronicle.Proofs.System.Release
import Chronicle.Proofs.System.Unseen
import Chronicle.Proofs.Families
import Chronicle.Proofs.System.Blinks
import Chronicle.Proofs.Raised
import Chronicle.Proofs.Counts
import Chronicle.Proofs.Evictions
import Chronicle.Proofs.LastIndex
import Chronicle.Proofs.System.Rounds
import Chronicle.Proofs.Limits
import Chronicle.Proofs.Marks
import Chronicle.Proofs.Surveys
import Chronicle.Proofs.Traces
import Chronicle.Proofs.System.Looks
import Chronicle.Proofs.System.Omitted
import Chronicle.Proofs.System.Solo
import Chronicle.Proofs.Interference
import Chronicle.Proofs.Json.Spelling
import Chronicle.Proofs.Json.Rendering
import Chronicle.Proofs.Json.Units
import Chronicle.Proofs.Duration.Decoding
import Chronicle.Proofs.Settings.Decoding
import Chronicle.Proofs.RoundTrip
import Chronicle.Proofs.Creation
import Chronicle.Proofs.Members
import Chronicle.Proofs.Decimal.Delimited
import Chronicle.Proofs.Duration.Delimited
import Chronicle.Proofs.Faults
