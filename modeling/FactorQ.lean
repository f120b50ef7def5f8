import FactorQ.Store.BlockSafety
import FactorQ.Store.LiveSafety
import FactorQ.Store.Integrity
import FactorQ.Reducer.Executions
import FactorQ.Reducer.Deferral
import FactorQ.Lifecycle.Told
import FactorQ.Lifecycle.Drop
import FactorQ.Cron.Progress
import FactorQ.Dispatch.Claims
import FactorQ.Dispatch.Trace
import FactorQ.Lifecycle.Drives
import FactorQ.Reducer.Persisted
import FactorQ.Store.Leaks
import FactorQ.Watcher.Visible
import FactorQ.Dispatch.AgentCap
import FactorQ.Llm.Permits
import FactorQ.Pricing.Episodes
import FactorQ.Pricing.Sound
import FactorQ.Projection.RestartSafety
import FactorQ.Projection.Retention
import FactorQ.Views.Turns
import FactorQ.Cron.CatchUp
import FactorQ.Cron.Removal
import FactorQ.Cron.Trimming
import FactorQ.Edge.Pin
import FactorQ.Grants.Gate
import FactorQ.Mcp.Naming
import FactorQ.Projection.TimeText
import FactorQ.Reducer.Completions
import FactorQ.Reducer.Deadline
import FactorQ.Reducer.Regroup
import FactorQ.Reducer.StepBudget
import FactorQ.Sandbox.Disclosure
import FactorQ.Store.Ranges
import FactorQ.Tools.Output
