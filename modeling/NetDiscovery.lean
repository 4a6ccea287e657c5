import NetDiscovery.Services.DeviceDiscoveryService
import NetDiscovery.Services.IcmpDeviceDiscoveryTask
import NetDiscovery.Net.Scanner.PingFutures
import NetDiscovery.Net.Scanner.PacketAge
import NetDiscovery.Net.Scanner.ReplyDelivery
import NetDiscovery.Net.Snmp.PendingRequests
import NetDiscovery.Net.Snmp.Walk
import NetDiscovery.Repo.DeviceRepository
import NetDiscovery.Net.Snmp.SessionCoherence
import NetDiscovery.Net.Snmp.SessionRefinement
import NetDiscovery.Net.Snmp.SessionFutures
import NetDiscovery.Net.Snmp.CallbackOrder
import NetDiscovery.Net.Snmp.SessionRefusals
import NetDiscovery.Net.Snmp.WalkProgress
import NetDiscovery.Net.Scanner.ReplyRouting
import NetDiscovery.Net.Scanner.AsyncScanner
import NetDiscovery.Util.Type.WrapAround
import NetDiscovery.Net.MacAddressText
import NetDiscovery.Util.RangeOf
import NetDiscovery.Net.Socket.IcmpFilter
import NetDiscovery.Net.Socket.SocketListener
import NetDiscovery.Net.Scanner.PingResolver
import NetDiscovery.Net.Scanner.PingTimeout
import NetDiscovery.Net.Snmp.SessionResponses
import NetDiscovery.Net.IPv4AddressForms
import NetDiscovery.Net.MacAddressForms
import NetDiscovery.Net.Snmp.OidValue
import NetDiscovery.App.MyIcmpDeviceDiscoveryTask
import NetDiscovery.Net.StringViews
import NetDiscovery.Net.IPv4AddressOrder
import NetDiscovery.Net.AddressSequence
import NetDiscovery.Services.ReentrantTask
import NetDiscovery.Util.Async.FutureDelivery
import NetDiscovery.Services.DiscoveryRefinement
import NetDiscovery.Services.DiscoveryStarvation
import NetDiscovery.Services.DiscoveryLifetime
import NetDiscovery.Semantics.Lasso
import NetDiscovery.Net.Snmp.ConcurrentWalk
import NetDiscovery.Net.Scanner.FilteredScanner
import NetDiscovery.App.DirectedPings
import NetDiscovery.Services.SnmpServiceProgress
import NetDiscovery.Util.Async.ServiceThreadEnd
import NetDiscovery.Repo.RepositoryLock
import NetDiscovery.App.CommandLoop
