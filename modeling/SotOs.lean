import SotOs.Sto.Caps
import SotOs.Sto.Isolation
import SotOs.Sotfs.Tree
import SotOs.Lucas.Conservation
import SotOs.Lucas.Containment
import SotOs.Lucas.CowReadBack
import SotOs.Lucas.RwBinstore
import SotOs.Sotfs.Persist
import SotOs.Lucas.Faithful
import SotOs.Lucas.PathAgree
import SotOs.Sotnet.Window
import SotOs.Sotnet.Reclaim
import SotOs.Sotnet.Stream
import SotOs.Sotnet.Retransmit
import SotOs.Synth.SshCuts
import SotOs.Synth.SshGate
import SotOs.Sotnet.BytepipeFrame
import SotOs.Procd.Lifecycle
import SotOs.Procd.Tiers
import SotOs.Procd.EventRing
import SotOs.Lucas.Tier
import SotOs.Anomaly.Tenants
import SotOs.Orch.WaitSound
import SotOs.Orch.PipeWake
import SotOs.Synth.Tls13Port
import SotOs.Lucas.Accounts
import SotOs.Lucas.Listing
import SotOs.Lucas.Rename
import SotOs.Lucas.UnionFast
import SotOs.Lucas.Vfs
import SotOs.Lucas.Futex
import SotOs.Orch.ShmPool
import SotOs.Synth.SshCtr
import SotOs.Synth.Tls13Record
import SotOs.Sotfs.Curvature
import SotOs.Sotcron.Calendar
import SotOs.Sottrace.Recent
import SotOs.Synth.SshPool
import SotOs.Sottrace.Capture
import SotOs.Sotshell.Glob
import SotOs.Lucas.Sysroot
import SotOs.Orch.ConsoleFb
