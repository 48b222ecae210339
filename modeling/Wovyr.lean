import Wovyr.Agent.Buffering
import Wovyr.Agent.OwnTools
import Wovyr.Audit.Backward
import Wovyr.Memory.Identity
import Wovyr.Provider.Cache.Isolation
import Wovyr.Provider.Gateway.Gate
import Wovyr.Provider.Gateway.Wedge
import Wovyr.Provider.Shared.Fleet
import Wovyr.Secrets.Changes
import Wovyr.Server.Agents.Charging
import Wovyr.Server.Agents.Runs
import Wovyr.Server.Auth.Revocation
import Wovyr.Server.Hardening.Authority
import Wovyr.Server.Hardening.Idempotency
import Wovyr.Server.Hardening.Replay
import Wovyr.Server.Mcp.Boundary
import Wovyr.Server.Mcp.Freshness
import Wovyr.Server.Memory.Compaction
import Wovyr.Server.Memory.Isolation
import Wovyr.Server.Tenancy.Concurrency
import Wovyr.Server.Tenancy.Escalation
import Wovyr.Server.Ui.Routes
import Wovyr.Server.Ui.Provenance
import Wovyr.Server.Webhooks.Delivery
import Wovyr.Server.Webhooks.Isolation
import Wovyr.Server.Workflows.Stamping
import Wovyr.Tenancy.Naming
import Wovyr.Ui.Media
import Wovyr.Ui.Redaction
import Wovyr.Workflow.Delivery
import Wovyr.Workflow.Identity
import Wovyr.Workflow.Order
import Wovyr.Workflow.Stores.Compaction
import Wovyr.Workflow.Cron.Field
import Wovyr.Workflow.Failure
import Wovyr.Workflow.Orderless
import Wovyr.Workflow.Placeholder
import Wovyr.Workflow.Cycles
import Wovyr.Workflow.Depth
import Wovyr.Workflow.Guard
import Wovyr.Workflow.Timers
import Wovyr.Workflow.Recurrence
import Wovyr.Plugin.Staging
import Wovyr.Marketplace.Publishers
import Wovyr.Plugin.Tools
import Wovyr.Workflow.Queue
import Wovyr.Workflow.Refusal
import Wovyr.Workflow.Expansion
import Wovyr.Workflow.Budget
import Wovyr.Tools.Scheduler
import Wovyr.Tools.McpTools
import Wovyr.Tools.Stdio
import Wovyr.Tools.Builtin
import Wovyr.Tools.Pool
import Wovyr.Server.RateLimit.Sweeping
import Wovyr.Provider.Cache.Lru
import Wovyr.Server.Hardening.Cursors
import Wovyr.Marketplace.Osv
import Wovyr.Marketplace.Envelope
import Wovyr.Plugin.Ordering
import Wovyr.Provider.Cache.Keys
import Wovyr.Memory.Chunk
import Wovyr.Memory.Starvation
import Wovyr.Agent.Prompt
import Wovyr.Agent.Redactor
import Wovyr.Agent.Budget
import Wovyr.Provider.Race
import Wovyr.Provider.Metering
import Wovyr.Provider.Schema
