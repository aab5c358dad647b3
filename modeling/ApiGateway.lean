import ApiGateway.Core.Accounts
import ApiGateway.Core.ConfigAcceptance
import ApiGateway.Core.Dispatch
import ApiGateway.Core.Ownership
import ApiGateway.Core.Reactor
import ApiGateway.Core.Rewrite
import ApiGateway.Core.StatsJson
import ApiGateway.Core.Target
import ApiGateway.Core.UnknownKeys
import ApiGateway.Filter.RateLimit
import ApiGateway.Http.ChunkedBody
import ApiGateway.Http.ContentLength
import ApiGateway.Http.KeepAlive
import ApiGateway.Logger.AsyncLogger
import ApiGateway.Monitor.Recording
import ApiGateway.Net.Accepting
import ApiGateway.Net.Buffered
import ApiGateway.Net.ByteQueue
import ApiGateway.Net.Grouping
import ApiGateway.Net.Memory
import ApiGateway.Net.Readiness
import ApiGateway.Proxy.Exchange
import ApiGateway.Proxy.HealthChecker
import ApiGateway.Proxy.Leak
import ApiGateway.Proxy.LoadBalancer
import ApiGateway.Proxy.Probes
import ApiGateway.Proxy.Trips
import ApiGateway.Timer.Cancelling
import ApiGateway.Timer.NextTimeout
import ApiGateway.Utils.Submitters
