import Nexios.Cap.Confinement
import Nexios.Cap.StaleHandle
import Nexios.Cap.MintOnce
import Nexios.Cap.RefCount
import Nexios.Cap.Revoke
import Nexios.Cap.FrameConservation
import Nexios.Cap.FrameMapSafety
import Nexios.Cap.HwSafety
import Nexios.Iommu.Exactness
import Nexios.MemPool.FreeList
import Nexios.Pmm.Ownership
import Nexios.Pmm.Coverage
import Nexios.Sched.Buckets
import Nexios.Sched.EdfOrder
import Nexios.Sched.StrictPriority
import Nexios.Join.Status
import Nexios.Join.WakeUp
import Nexios.Sched.AdmissionTest
import Nexios.Sched.PeriodicTopUp
import Nexios.Sched.MemoryBudget
import Nexios.Sync.MutexCeiling
import Nexios.Sync.MutexExclusion
import Nexios.Sync.MutexHandOff
import Nexios.Sync.BoostChain
import Nexios.Sync.QueueBoost
import Nexios.Sync.WakeUps
import Nexios.Reap.ExactlyOnce
import Nexios.Ipc.BufferMappings
import Nexios.Ipc.BufferOwnership
import Nexios.Ipc.SendSync
import Nexios.Ipc.SenderPriority
import Nexios.Sync.NotifyDelivery
import Nexios.Sync.RwLock
import Nexios.Sync.SpscRing
import Nexios.Vmm.TlbQuarantine
import Nexios.Ipc.PagerMap
import Nexios.Vfs.TmpfsDir
import Nexios.Vfs.FatChains
import Nexios.Vfs.ResolveParent
import Nexios.Elf.SharedText
import Nexios.Elf.SymbolLookup
import Nexios.Driver.PingPongDma
