import DpdkStudy.TenantQos.Accounting
import DpdkStudy.TenantQos.Policing
import DpdkStudy.TenantQos.RateSelection
import DpdkStudy.TenantQos.TopK
import DpdkStudy.Lpm.Groups
import DpdkStudy.Lpm6.Ownership
import DpdkStudy.Lpm6.Bulk
import DpdkStudy.Rib.PrefixMap
import DpdkStudy.Rib.SubTree
import DpdkStudy.Ipsec.Esn
import DpdkStudy.Ipsec.AntiReplay
import DpdkStudy.Ipsec.Link
import DpdkStudy.Reorder.Conservation
import DpdkStudy.Reorder.Delivery
import DpdkStudy.Reorder.UpTo
import DpdkStudy.Meter.Conformance
import DpdkStudy.Fib.Reservation
import DpdkStudy.Fib.Atomic
import DpdkStudy.Fib.Lookups
import DpdkStudy.Fib.LpmAgreement
import DpdkStudy.Vhost.HostileGuest
import DpdkStudy.Vhost.IotlbSoundness
import DpdkStudy.Malloc.Zeroed
import DpdkStudy.IpFrag.RoundTrip
import DpdkStudy.IpFrag.Copying
import DpdkStudy.Timer.Due
import DpdkStudy.Rcu.Qsbr
import DpdkStudy.Ring.Suspended
import DpdkStudy.Ring.Elements
import DpdkStudy.Pdcp.Count
import DpdkStudy.Bitmap.Contents
import DpdkStudy.Bpf.ControlFlow
import DpdkStudy.Bpf.Branch
import DpdkStudy.Sched.BurstEnqueue
import DpdkStudy.Stack.Safety
import DpdkStudy.Pdcp.Delivery
import DpdkStudy.Pdcp.Reordering
import DpdkStudy.Pdcp.OutOfOrder
import DpdkStudy.Pdcp.Accounting
import DpdkStudy.Pdcp.Status
import DpdkStudy.TenantQos.RuleNumbers
import DpdkStudy.Mempool.Conservation
import DpdkStudy.Member.NoFalseNegatives
import DpdkStudy.Member.TopK
import DpdkStudy.Pktmbuf.Flat
import DpdkStudy.Eal.Searches
import DpdkStudy.Eal.Reciprocal
import DpdkStudy.Sched.PortTime
import DpdkStudy.Thash.Toeplitz
