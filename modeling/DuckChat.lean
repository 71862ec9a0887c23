import DuckChat.Arrival
import DuckChat.AtMostOnce
import DuckChat.Audience
import DuckChat.Bounds
import DuckChat.ByteNet
import DuckChat.Commands
import DuckChat.Commute
import DuckChat.Copies
import DuckChat.Delivery
import DuckChat.Forwarding
import DuckChat.Founders
import DuckChat.Hops
import DuckChat.Integrity
import DuckChat.JoinOrder
import DuckChat.Leases
import DuckChat.Lines
import DuckChat.Lookups
import DuckChat.Loops
import DuckChat.Loyalty
import DuckChat.Manners
import DuckChat.Membership
import DuckChat.OwnBytes
import DuckChat.Pruning
import DuckChat.Reader
import DuckChat.Removals
import DuckChat.Renewal
import DuckChat.Replies
import DuckChat.Retire
import DuckChat.Speaker
import DuckChat.Speaking
import DuckChat.Storm
import DuckChat.Subscription
import DuckChat.Timers
import DuckChat.Transit
import DuckChat.Unsubscribe
import DuckChat.Wakeups
import DuckChat.Window
