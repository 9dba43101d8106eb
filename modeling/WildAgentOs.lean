import WildAgentOs.Engine.HnswEntry
import WildAgentOs.Engine.RejectedWrite
import WildAgentOs.Engine.HealthScan
import WildAgentOs.Llm.SseChunking
import WildAgentOs.Llm.StreamDecode
import WildAgentOs.Llm.UsageMeter
import WildAgentOs.Core.EventBus
import WildAgentOs.Core.PdcaResume
import WildAgentOs.Core.DagOrder
import WildAgentOs.Core.StepAgents
import WildAgentOs.Core.CompressedHistory
import WildAgentOs.Core.ToolResultAging
import WildAgentOs.Invocations.Reconfigured
import WildAgentOs.Invocations.ScopePurge
import WildAgentOs.Memory.TenantRegistry
import WildAgentOs.Invocations.Wakeups
import WildAgentOs.Memory.Consistency
import WildAgentOs.Memory.VectorScopes
import WildAgentOs.Memory.LostUpdates
import WildAgentOs.Memory.BlackboardCounters
import WildAgentOs.Memory.SubtreeRemoval
import WildAgentOs.Memory.TaskDag
import WildAgentOs.Memory.BudgetedProjection
import WildAgentOs.Memory.SessionRuns
import WildAgentOs.Tools.Narrowing
import WildAgentOs.Tools.PermissionRules
import WildAgentOs.Tools.WorkspacePath
import WildAgentOs.Tools.ContentLocks
import WildAgentOs.Tools.MicroOwners
import WildAgentOs.Tools.Gates
import WildAgentOs.Tools.Advertised
import WildAgentOs.Engine.FilterCheck
import WildAgentOs.Engine.MetadataRuns
import WildAgentOs.Engine.HybridFusion
import WildAgentOs.KnowledgeGraph.QualityGate
import WildAgentOs.Tools.Graphify
import WildAgentOs.KnowledgeGraph.Materialize
import WildAgentOs.KnowledgeGraph.RecordRuns
import WildAgentOs.Tools.Sharing
import WildAgentOs.Tools.SharingLocks
import WildAgentOs.SkillGraph.LinkTraversal
import WildAgentOs.SkillGraph.Dependencies
import WildAgentOs.SkillGraph.SkillPaths
import WildAgentOs.SkillGraph.Conflicts
import WildAgentOs.SkillGraph.Restart
import WildAgentOs.Corpus.JobLifecycle
import WildAgentOs.Tools.Snapshots
import WildAgentOs.Tools.WorkspaceFiles
import WildAgentOs.Tools.ChangedLines
import WildAgentOs.Invocations.Scrub
import WildAgentOs.Invocations.Fingerprint
import WildAgentOs.Llm.IncrementalJson
