import PpsDht.ClusterRead
import PpsDht.DumpNode
import PpsDht.DumpTermination
import PpsDht.ServerStore
import PpsDht.GetReply
import PpsDht.Dispatch
import PpsDht.DumpClient
import PpsDht.Placement
import PpsDht.PutQuorum
import PpsDht.PutAccess
import PpsDht.HashtableReports
import PpsDht.HashtableEnumeration
import PpsDht.DigestOrder
import PpsDht.ServersBuffer
import PpsDht.NodeCopies
import PpsDht.ArgsGrammar
import PpsDht.ArgsAccess
import PpsDht.Substr
import PpsDht.Cat
import PpsDht.ListNodes
import PpsDht.NodeText
import PpsDht.DumpStores
import PpsDht.TrafficNodes
import PpsDht.TrafficPrograms
import PpsDht.HashtableHeapFree
