import Fnsproxy.Range.Atomic
import Fnsproxy.Range.Undo
import Fnsproxy.Range.Groups
import Fnsproxy.Range.Tidy
import Fnsproxy.Range.Step
import Fnsproxy.Radix.Free
import Fnsproxy.Radix.Minimal
import Fnsproxy.Dns.Rewrite
import Fnsproxy.Dlist.Walk
import Fnsproxy.Dlist.Sequence
import Fnsproxy.Dlist.Dup
import Fnsproxy.Net.Dispatch
import Fnsproxy.Net.Replies
import Fnsproxy.Geo.Unload
import Fnsproxy.Geo.LineBased
import Fnsproxy.Net.Register
import Fnsproxy.Dns.Bounds
import Fnsproxy.Geo.Upsert
import Fnsproxy.Geo.Modes
import Fnsproxy.Vector.Header
import Fnsproxy.Vector.Iter
import Fnsproxy.Log.Runs
import Fnsproxy.Geo.Terminates
import Fnsproxy.Geo.Routes
import Fnsproxy.Dns.Chain
import Fnsproxy.Net.Translate
import Fnsproxy.Net.Fates
import Fnsproxy.Geo.Ranges
import Fnsproxy.Log.Restart
import Fnsproxy.Range.Dump
import Fnsproxy.Net.Forged
import Fnsproxy.Net.Relay
