import Nodepilot.Lib.Obeys
import Nodepilot.Model.Job
import Nodepilot.Safety.Exclusivity
import Nodepilot.Safety.Ceilings
import Nodepilot.Safety.LifeCycle
import Nodepilot.Safety.LaunchPass
import Nodepilot.Safety.Confluence
import Nodepilot.Machine.Supervision
import Nodepilot.Model.Host
import Nodepilot.Machine.Probes
import Nodepilot.Safety.Zombies
import Nodepilot.Safety.Sessions
import Nodepilot.Safety.Persistence
import Nodepilot.Machine.Restart
import Nodepilot.Safety.Placement
import Nodepilot.Safety.Cooldown
import Nodepilot.Lib.Walks
import Nodepilot.Steps.Idle
import Nodepilot.Safety.Stuck
import Nodepilot.Safety.Draining
import Nodepilot.Safety.Containment
import Nodepilot.Safety.Killing
import Nodepilot.Lib.Files
import Nodepilot.Model.StateFile
import Nodepilot.Safety.AtomicSave
import Nodepilot.Lib.Trees
import Nodepilot.Model.Values
import Nodepilot.Model.Queue
import Nodepilot.Model.Snapshot
import Nodepilot.Safety.Resume
import Nodepilot.Safety.Success
import Nodepilot.Safety.CpuText
import Nodepilot.Lib.Layout
import Nodepilot.Model.Mpi
import Nodepilot.Safety.RankPlans
import Nodepilot.Safety.SkipPropagation
import Nodepilot.Safety.PriorityOrder
import Nodepilot.Model.Siblings
import Nodepilot.Safety.PhysicalCores
import Nodepilot.Safety.HandleTable
import Nodepilot.Safety.ScopeNames
import Nodepilot.Machine.ProcTable
import Nodepilot.Lib.Confine
import Nodepilot.Safety.StatText
import Nodepilot.Safety.Pins
import Nodepilot.Safety.QueueForm
import Nodepilot.Safety.Crash
import Nodepilot.Lib.Copies
import Nodepilot.Safety.Sharing
import Nodepilot.Safety.KillCommand
import Nodepilot.Lib.Decimal
import Nodepilot.Lib.Shlex
import Nodepilot.Safety.Numerals
import Nodepilot.Safety.Commands
import Nodepilot.Safety.Orders
import Nodepilot.Safety.SecondPass
import Nodepilot.Safety.Records
import Nodepilot.Safety.Typing
import Nodepilot.Model.Topology
import Nodepilot.Safety.Topology
import Nodepilot.Model.HostProbes
import Nodepilot.Safety.HostMemory
import Nodepilot.Lib.Completes
import Nodepilot.Safety.Unbroken
